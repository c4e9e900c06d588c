import Ecos.Cdl.TransactViews

namespace Ecos.Cdl
open Transaction Config List Option

/-- The transaction that is merged into its parent, or into the toplevel. -/
def Act.commits {N S : Type*} : Act N S → Option Nat
  | .commit t | .resolveApplied t _ => some t
  | _ => none

/-- The transaction whose changes are given up. -/
def Act.cancels {N S : Type*} : Act N S → Option Nat
  | .cancel t | .resolveFailed t _ | .resolveSaved t _ _ => some t
  | _ => none

namespace Config
variable {N S : Type*} {s s' : Config N S} {t u p c d a sub : Nat} {v n : N} {k : Bool} {W : Nat → Prop}

def OnlyChild (s : Config N S) (t : Nat) : Prop :=
  ∀ u < s.nextTransaction, s.alive u = true → (s.trans u).parent = (s.trans t).parent → (s.trans t).parent ≠ none → u = t

theorem Tree.lineage_leaf (tree : s.Tree) (leaf : s.Leaf u) (there : s.alive sub = true)
    (parent : (s.trans sub).parent = some t) : ∀ a ∈ s.lineage t, ¬ a = u := by
  rintro a up rfl
  have alive := (tree.older sub t there parent).2
  by_cases same : t = a
  · subst same
    exact leaf sub (tree.bound sub there) there parent
  · exact tree.leaf_lineage leaf alive same up

theorem OnlyChild.elsewhere (only : s.OnlyChild u) (filed : s.Filed) (leaf : s.Leaf u) (there : s.alive sub = true)
    (parent : (s.trans sub).parent = some t) (other : sub ≠ u) (above : (s.trans u).parent = some p) :
    p ∉ s.lineage t := by
  have alive := (filed.older sub t there parent).2
  have single (w : Nat) (aliveW : s.alive w = true) (child : (s.trans w).parent = some p) : w = u :=
    only w (filed.bound w aliveW) aliveW (child.trans above.symm) (by rw [above]; exact some_ne_none p)
  intro up
  rw [filed.lineage_cons alive] at up
  rcases mem_cons.mp up with rfl | up
  · exact other (single sub there parent)
  · obtain ⟨w, mem, child⟩ := filed.above_child alive up
    have aliveW := (filed.lineage_alive alive w mem).1
    exact filed.toTree.lineage_leaf leaf there parent w mem (single w aliveW child)

variable [DecidableEq N]

/-- A step of a nested run: a commit does not touch a transaction that has other children. -/
def Nested [BEq S] (s : Config N S) (e : Act N S) : Prop :=
  s.Enabled e ∧ ∀ t, e.commits = some t → s.OnlyChild t

/-! Others leave a view alone -/

theorem within_set [BEq S] {new : CdlValue S} : Within (· = t) s (s.act (.setWholeValue t v new)) := by
  have set (s : Config N S) (old : CdlValue S) : Within (· = t) s (s.setWholeValue t v old new) := by
    exact within_modify rfl fun _ => ⟨rfl, rfl⟩
  exact (within_access (s.lineage t)).trans (set _ _)

theorem Filed.view_conf (filed : s.Filed) (alive : s.alive t = true) {f : Conflict N S → Conflict N S}
    (keeps : ∀ conf, (f conf).structural = conf.structural ∧ (f conf).node = conf.node ∧
      (f conf).property = conf.property) : ((s.touch c).modifyConf c f).view t = s.view t := by
  have within : Within (fun _ => False) s ((s.touch c).modifyConf c f) :=
    within_touch.trans (within_modifyConf keeps)
  exact filed.view_within alive within fun _ _ => id

theorem Filed.view_commit (filed : s.Filed) (innermost : s.Innermost u) (there : s.alive sub = true)
    (parent : (s.trans sub).parent = some t) (other : sub ≠ u)
    (elsewhere : ∀ p, (s.trans u).parent = some p → p ∉ s.lineage t) : (s.commit u).view t = s.view t := by
  obtain ⟨alive', -, leaf⟩ := innermost
  have alive := (filed.older sub t there parent).2
  unfold Config.commit
  split
  · rename_i q above
    refine filed.view_within alive within_commitSub fun a up => ?_
    rintro (is | rfl)
    · exact filed.toTree.lineage_leaf leaf there parent a up is
    · exact elsewhere a above up
  · rename_i root
    have both := filed.root_alone leaf root alive' there
    exact absurd both other

theorem Filed.view_cancel (filed : s.Filed) (leaf : s.Leaf u) (there : s.alive sub = true)
    (parent : (s.trans sub).parent = some t) : (s.cancel u).view t = s.view t :=
  filed.view_within (filed.older sub t there parent).2 within_cancel (filed.toTree.lineage_leaf leaf there parent)

theorem mem_getConflicts {node : N} {property : Option Nat} {fn : Nat → Bool} :
    c ∈ s.getConflicts t k node property fn ↔ c ∈ s.listed t k ∧ (s.conf c).node = node ∧
      (property = none ∨ property = some (s.conf c).property) ∧ s.hasConflictBeenCleared t c = false ∧ fn c = true := by
  rw [getConflicts, mem_filter, decide_eq_true_iff]

theorem view_same (trans : s'.trans = s.trans) (conf : s'.conf = s.conf) (value : s'.value = s.value)
    (active : s'.active = s.active) (conflicts : s'.conflicts = s.conflicts) : s'.view t = s.view t := by
  have lineage : s'.lineage t = s.lineage t := lineage_same fun u => by rw [trans]
  have listed (k : Bool) : s'.listed t k = s.listed t k := by
    rw [listed, listed, lineage, trans, conflicts]
  have cleared (c : Nat) : s'.hasConflictBeenCleared t c = s.hasConflictBeenCleared t c := by
    rw [hasConflictBeenCleared, hasConflictBeenCleared, lineage, trans, conf]
  unfold view
  rw [getWholeValue_eq, getWholeValue_eq, isActive_eq, isActive_eq, lineage, trans, value, active]
  congr 1
  funext k node property fn
  ext c
  change c ∈ s'.getConflicts t k node property fn ↔ c ∈ s.getConflicts t k node property fn
  rw [mem_getConflicts, mem_getConflicts, listed, cleared, conf]

theorem view_delete : (s.delete u).view t = s.view t := view_same rfl rfl rfl rfl rfl

theorem Filed.view_makeSub (filed : s.Filed) (from' : s.alive p = true) (alive : s.alive t = true)
    {conflict : Option Nat} : (s.makeSub p conflict).view t = s.view t := by
  have old (u : Nat) (there : s.alive u = true) : (s.makeSub p conflict).trans u = s.trans u := by
    simp [Config.makeSub, ne_of_lt (filed.bound u there)]
  have there' : (s.makeSub p conflict).alive t = true := by
    simp [Config.makeSub, ne_of_lt (filed.bound t alive), alive]
  refine filed.view_congr alive ?_ (fun a up => ?_) rfl rfl rfl (fun _ _ => rfl) (fun _ _ => rfl) (fun _ _ => rfl)
  · exact filed.lineage_kept (filed.toTree.makeSub from') (fun t alive => by rw [old t alive]) alive there'
  · rw [old a (filed.lineage_alive alive a up).1]

theorem Filed.view_resolveSaved (filed : s.Filed) (innermost : s.Innermost u) (there : s.alive sub = true)
    (parent : (s.trans sub).parent = some t) : (s.resolveSaved u p c).view t = s.view t := by
  have leaf := innermost.2.2
  have alive := (filed.older sub t there parent).2
  have saved : Within (· = u) s (s.saveSolution u c) := within_saveSolution
  have outside := filed.toTree.lineage_leaf leaf there parent
  have filed₁ := filed.saveSolution (c := c) leaf
  have there₁ : (s.saveSolution u c).alive sub = true := (congrFun saved.alive sub).trans there
  have first : (s.saveSolution u c).view t = s.view t := filed.view_within alive saved outside
  have second : ((s.saveSolution u c).cancel u).view t = (s.saveSolution u c).view t :=
    filed₁.view_cancel (saved.leaf leaf) there₁ ((saved.parent sub).trans parent)
  have both : Within (· = u) s ((s.saveSolution u c).cancel u) := saved.trans within_cancel
  let s₃ := (((s.saveSolution u c).cancel u).delete u).touch c
  have ended : s₃.view t = ((s.saveSolution u c).cancel u).view t := view_same rfl rfl rfl rfl rfl
  have looked : s₃.view t = s.view t := ended.trans (second.trans first)
  have lineage : s₃.lineage t = s.lineage t := lineage_same both.parent
  change (if (s₃.conf c).transaction = none then s₃.modify p (·.noteGlobal c) else s₃).view t = s.view t
  split
  · refine Eq.trans (filed.view_congr alive ?_ ?_ both.value both.active both.conflicts both.node both.property
      both.structural) rfl
    · have noted : SameFiles s₃ (s₃.modify p (·.noteGlobal c)) := sameFiles_noteGlobal
      exact (lineage_same noted.parent).trans lineage
    · intro a up
      have same : (s₃.trans a).core = (s.trans a).core :=
        congrArg core (both.others a (outside a up))
      by_cases here : a = p
      · subst here
        rw [modify_self, core_noteGlobal]
        exact same
      · rw [modify_other here]
        exact same
  · exact looked

/-- A transaction with a child is not affected by what is done and committed elsewhere. -/
theorem Filed.view_elsewhere [BEq S] {e : Act N S} (filed : s.Filed) (enabled : s.Enabled e) (there : s.alive sub = true)
    (parent : (s.trans sub).parent = some t) (other : e.commits ≠ some sub)
    (elsewhere : ∀ u p, e.commits = some u → (s.trans u).parent = some p → p ∉ s.lineage t) :
    (s.act e).view t = s.view t := by
  have alive := (filed.older sub t there parent).2
  cases e with
  | getWholeValue u v => exact filed.view_within alive (within_access (W := fun _ => False) _) fun _ _ => id
  | setWholeValue u v new =>
    exact filed.view_within alive within_set (filed.toTree.lineage_leaf enabled.2.2 there parent)
  | setActive u n state =>
    have within : Within (· = u) s (s.setActive u n state) := within_modify rfl fun _ => ⟨rfl, rfl⟩
    exact filed.view_within alive within (filed.toTree.lineage_leaf enabled.2.2 there parent)
  | newConflict u node property k =>
    exact filed.view_within alive within_newConflict (filed.toTree.lineage_leaf enabled.2.2 there parent)
  | clearConflict u c =>
    exact filed.view_within alive within_clearConflict (filed.toTree.lineage_leaf enabled.1.2.2 there parent)
  | propagateValue u =>
    exact filed.view_within alive within_propagateValue (filed.toTree.lineage_leaf enabled.2.2 there parent)
  | propagateActive u =>
    have within : Within (· = u) s (s.propagateActive u) := within_modify rfl fun _ => ⟨rfl, rfl⟩
    exact filed.view_within alive within (filed.toTree.lineage_leaf enabled.2.2 there parent)
  | makeTop =>
    exfalso
    refine filed.induct (P := fun _ => False) ?_ (fun _ _ _ _ ih => ih) t alive
    intro u alive' root
    have idle : s.transaction = none := enabled
    rw [filed.root u alive' root] at idle
    exact some_ne_none u idle
  | makeSub u conflict => exact filed.view_makeSub enabled.1 alive
  | cancel u => exact filed.view_cancel enabled.2 there parent
  | commit u =>
    exact filed.view_commit enabled.1 there parent (fun is => other (congrArg some is.symm))
      fun p above => elsewhere u p rfl above
  | delete u => exact view_delete
  | resolveFailed u c =>
    have within : Within (· = u) s (s.cancel u) := within_cancel
    have leaf := enabled.1.2.2
    have outside := filed.toTree.lineage_leaf leaf there parent
    refine filed.view_congr alive (lineage_same within.parent) (fun a up => ?_) within.value within.active
      within.conflicts ?_ ?_ ?_
    · exact congrArg core (within.others a (outside a up))
    all_goals
      intro d bound
      by_cases here : d = c
      · subst here
        simp [Config.act, Config.resolveFailed, modifyConf, touch, Config.delete, within.node d bound,
          within.property d bound, within.structural d bound]
      · simp [Config.act, Config.resolveFailed, modifyConf, touch, Config.delete, here, within.node d bound,
          within.property d bound, within.structural d bound]
  | resolveSaved u q c => exact filed.view_resolveSaved enabled.1 there parent
  | resolveApplied u c =>
    let s₁ := (s.touch c).modifyConf c fun conf => { conf with
      solutionReferences := ∅
      noSolution := false
      solution := conf.solution ++ (s.trans u).changes.entries.map fun change => (change.1, change.2) }
    have filed₁ : s₁.Filed := filed.same (sameFiles_conf fun _ => ⟨rfl, rfl, rfl, rfl⟩)
    have same : s₁.view t = s.view t := filed.view_conf alive fun _ => ⟨rfl, rfl, rfl⟩
    have lineage : s₁.lineage t = s.lineage t := lineage_same fun _ => rfl
    have committed : (s₁.commit u).view t = s₁.view t :=
      filed₁.view_commit enabled.1 there parent (fun is => other (congrArg some is.symm))
        fun p above => lineage ▸ elsewhere u p rfl above
    exact view_delete.trans (committed.trans same)

theorem Filed.view_other [BEq S] {e : Act N S} (filed : s.Filed) (nested : s.Nested e) (there : s.alive sub = true)
    (parent : (s.trans sub).parent = some t) (other : e.commits ≠ some sub) : (s.act e).view t = s.view t := by
  obtain ⟨enabled, only⟩ := nested
  refine filed.view_elsewhere enabled there parent other fun u p commits above => ?_
  have leaf : s.Leaf u := by
    cases e with
    | commit w =>
      cases commits
      exact enabled.1.2.2
    | resolveApplied w c =>
      cases commits
      exact enabled.1.2.2
    | _ => cases commits
  exact (only u commits).elsewhere filed leaf there parent (fun is => other (is ▸ commits)) above

/-- Transactions keep their parents, and none comes back. -/
theorem act_static [BEq S] {e : Act N S} (bound : u < s.nextTransaction) :
    ((s.act e).trans u).parent = (s.trans u).parent ∧ ((s.act e).alive u = true → s.alive u = true) ∧
      s.nextTransaction ≤ (s.act e).nextTransaction := by
  have within {W : Nat → Prop} {s' : Config N S} (within : Within W s s') :
      (s'.trans u).parent = (s.trans u).parent ∧ (s'.alive u = true → s.alive u = true) ∧
        s.nextTransaction ≤ s'.nextTransaction :=
    ⟨within.parent u, fun there => within.alive ▸ there, within.nextTransaction.ge⟩
  have deleted {s' : Config N S} {t : Nat} (held : (s'.trans u).parent = (s.trans u).parent ∧
      (s'.alive u = true → s.alive u = true) ∧ s.nextTransaction ≤ s'.nextTransaction) :
      ((s'.delete t).trans u).parent = (s.trans u).parent ∧ ((s'.delete t).alive u = true → s.alive u = true) ∧
        s.nextTransaction ≤ (s'.delete t).nextTransaction := by
    refine ⟨held.1, fun there => held.2.1 ?_, held.2.2⟩
    by_cases same : u = t
    · subst same
      simp [delete] at there
    · simpa [delete, same] using there
  have committed (s' : Config N S) (t : Nat) (parent : (s'.trans u).parent = (s.trans u).parent) (alive : s'.alive = s.alive)
      (next : s'.nextTransaction = s.nextTransaction) : ((s'.commit t).trans u).parent = (s.trans u).parent ∧
        ((s'.commit t).alive u = true → s.alive u = true) ∧ s.nextTransaction ≤ (s'.commit t).nextTransaction := by
    unfold commit
    split
    · rename_i p above
      have inner := within_commitSub (s := s') (t := t) (p := p)
      exact ⟨(inner.parent u).trans parent, fun there => by rwa [inner.alive, alive] at there,
        (inner.nextTransaction.trans next).ge⟩
    · obtain ⟨trans, alive', -, -, next', -⟩ := commitTop_spec s' t
      refine ⟨?_, fun there => by rwa [alive', alive] at there, (next'.trans next).ge⟩
      rw [trans, ← parent]
      by_cases same : u = t
      · subst same
        simp [committed, made]
      · rw [Function.update_of_ne same]
  have fresh : u ≠ s.nextTransaction := ne_of_lt bound
  cases e with
  | getWholeValue t v => exact within (within_access (W := fun _ => False) _)
  | setWholeValue t v new => exact within within_set
  | setActive t n state => exact within (W := (· = t)) (within_modify rfl fun _ => ⟨rfl, rfl⟩)
  | newConflict t node property k => exact within within_newConflict
  | clearConflict t c => exact within within_clearConflict
  | propagateValue t => exact within within_propagateValue
  | propagateActive t =>
    have quiet : Within (· = t) s (s.propagateActive t) := within_modify rfl fun _ => ⟨rfl, rfl⟩
    exact within quiet
  | makeTop => exact ⟨by simp [act, makeTop, fresh], by simp [act, makeTop, fresh], Nat.le_succ _⟩
  | makeSub t conflict => exact ⟨by simp [act, makeSub, fresh], by simp [act, makeSub, fresh], Nat.le_succ _⟩
  | cancel t => exact within within_cancel
  | commit t => exact committed s t rfl rfl rfl
  | delete t => exact deleted ⟨rfl, id, le_rfl⟩
  | resolveFailed t c => exact deleted (within within_cancel)
  | resolveSaved t p c =>
    have ended := deleted (t := t) (within (within_saveSolution (c := c) |>.trans (within_cancel (t := t))))
    change ((s.resolveSaved t p c).trans u).parent = (s.trans u).parent ∧
      ((s.resolveSaved t p c).alive u = true → s.alive u = true) ∧
        s.nextTransaction ≤ (s.resolveSaved t p c).nextTransaction
    unfold resolveSaved
    dsimp only
    split
    · have noted := sameFiles_noteGlobal (s := (((s.saveSolution t c).cancel t).delete t).touch c) (p := p) (c := c)
      exact ⟨(noted.parent u).trans ended.1, ended.2.1, ended.2.2⟩
    · exact ended
  | resolveApplied t c => exact deleted (committed _ t rfl rfl rfl)

theorem Filed.view_run [BEq S] {es : List (Act N S)} (filed : s.Filed) (bound : sub < s.nextTransaction)
    (parent : (s.trans sub).parent = some t) (admits : Machine.Admits Nested Config.act s es)
    (never : ∀ e ∈ es, e.commits ≠ some sub) (there : (es.foldl Config.act s).alive sub = true) :
    s.alive sub = true ∧ (es.foldl Config.act s).Filed ∧ ((es.foldl Config.act s).trans sub).parent = some t ∧
      (es.foldl Config.act s).view t = s.view t := by
  induction es generalizing s with
  | nil => exact ⟨there, filed, parent, rfl⟩
  | cons e es ih =>
    obtain ⟨nested, admits⟩ := admits
    obtain ⟨same, older, next⟩ := act_static (e := e) bound
    obtain ⟨there', filed', parent', view⟩ := ih (filed.act nested.1) (lt_of_lt_of_le bound next) (same.trans parent) admits
      (fun e mem => never e (mem_cons_of_mem _ mem)) there
    have was := older there'
    exact ⟨was, filed', parent', view.trans (filed.view_other nested was parent (never e mem_cons_self))⟩

theorem Filed.view_committed [BEq S] {e : Act N S} (filed : s.Filed) (apart : s.Apart) (enabled : s.Enabled e)
    (commits : e.commits = some t) : (∀ p, (s.trans t).parent = some p → (s.act e).view p = s.view t) ∧
      ((s.trans t).parent = none → (s.act e).ownView = s.view t) := by
  have plain (s : Config N S) (filed : s.Filed) (apart : s.Apart) (innermost : s.Innermost t)
      (siblings : s.SiblingsLeft t) : (∀ p, (s.trans t).parent = some p → (s.commit t).view p = s.view t) ∧
        ((s.trans t).parent = none → (s.commit t).ownView = s.view t) := by
    refine ⟨fun p parent => ?_, fun root => ?_⟩
    · have step : s.commit t = s.commitSub t p := by rw [Config.commit, parent]
      rw [step]
      exact filed.view_commitSub innermost.1 parent (filed.commitSub innermost siblings parent) (apart t innermost.1)
    · have step : s.commit t = s.commitTop t := by rw [Config.commit, root]
      rw [step]
      exact filed.view_commitTop innermost.1 root (apart t innermost.1)
  cases e with
  | commit u =>
    cases commits
    exact plain s filed apart enabled.1 enabled.2
  | resolveApplied u c =>
    cases commits
    let s₁ := (s.touch c).modifyConf c fun conf => { conf with
      solutionReferences := ∅
      noSolution := false
      solution := conf.solution ++ (s.trans t).changes.entries.map fun change => (change.1, change.2) }
    have filed₁ : s₁.Filed := filed.same (sameFiles_conf fun _ => ⟨rfl, rfl, rfl, rfl⟩)
    have same : s₁.view t = s.view t := filed.view_conf enabled.1.1 fun _ => ⟨rfl, rfl, rfl⟩
    obtain ⟨sub, top⟩ := plain s₁ filed₁ apart enabled.1 enabled.2.1
    refine ⟨fun p parent => view_delete.trans ((sub p parent).trans same), fun root => (top root).trans same⟩
  | _ => cases commits

/-- Transactions are nested snapshots. Committing one gives its view to the parent, or to the toplevel; giving it up
leaves the parent with the view it had when the transaction was made; and no node is active and inactive at once. -/
theorem nested_snapshots [BEq S] (reach : (system N S).Reach s) :
    (∀ e t p, Enabled s e → e.commits = some t → (s.trans t).parent = some p → (s.act e).view p = s.view t) ∧
    (∀ e t, Enabled s e → e.commits = some t → (s.trans t).parent = none → (s.act e).ownView = s.view t) ∧
    (∀ t conflict, s.Enabled (.makeSub t conflict) → ∀ es, Machine.Admits Nested act (s.makeSub t conflict) es →
      (∀ e ∈ es, e.commits ≠ some s.nextTransaction) →
      ∀ e, e.cancels = some s.nextTransaction → Enabled (es.foldl act (s.makeSub t conflict)) e →
        ((es.foldl act (s.makeSub t conflict)).act e).view t = s.view t) ∧
    ∀ t, s.alive t = true → Disjoint (s.trans t).activated (s.trans t).deactivated := by
  have filed := Reach.filed reach
  have apart := Reach.apart reach
  refine ⟨?_, ?_, ?_, apart⟩
  · exact fun e t p enabled commits parent => (filed.view_committed apart enabled commits).1 p parent
  · exact fun e t enabled commits root => (filed.view_committed apart enabled commits).2 root
  · intro t conflict enabled es admits never e cancels last
    let s₁ := s.makeSub t conflict
    let s₂ := es.foldl act s₁
    have filed₁ : s₁.Filed := filed.makeSub enabled.1
    have parent : (s₁.trans s.nextTransaction).parent = some t := by simp [s₁, makeSub, Transaction.made]
    have there : s₂.alive s.nextTransaction = true := by
      cases e with
      | cancel u => cases cancels; exact last.1
      | resolveFailed u c => cases cancels; exact last.1.1
      | resolveSaved u p c => cases cancels; exact last.1.1
      | _ => cases cancels
    have bound : s.nextTransaction < s₁.nextTransaction := Nat.lt_succ_self _
    obtain ⟨-, filed₂, parent₂, run⟩ := filed₁.view_run bound parent admits never there
    have nested : Nested s₂ e := by
      refine ⟨last, fun u commits => ?_⟩
      cases e <;> cases cancels <;> cases commits
    have notCommitted : e.commits ≠ some s.nextTransaction := by
      cases e <;> cases cancels <;> exact (Option.some_ne_none _).symm
    exact (filed₂.view_other nested there parent₂ notCommitted).trans (run.trans (filed.view_makeSub enabled.1 enabled.1))

/-- Nothing has been changed yet, and there is no conflict. -/
def blank : Config Nat Nat where
  valuable := fun _ => true
  modifiable := fun _ => true
  value := fun _ => ⟨.data, .default, fun _ => true, fun _ => true, fun _ => 0⟩
  active := fun _ => true
  conflicts := fun _ => []
  transaction := none
  conf := fun _ => ⟨0, 0, none, false, false, [], ∅⟩
  live := fun _ => false
  nextConflict := 0
  trans := fun _ => .made none none
  alive := fun _ => false
  stale := fun _ => false
  nextTransaction := 0
  fault := false

theorem blank_start : blank.Start := ⟨rfl, fun _ => rfl, by simp [blank], by simp [blank], by simp [blank], rfl⟩

/-- A conflict is made at the top and cleared below, where a node is deactivated and a value set. -/
theorem nested_snapshots_cleared :
    (([.makeTop, .newConflict 0 7 0 false, .makeSub 0 none, .clearConflict 1 0, .setActive 1 3 false,
        .setWholeValue 1 7 ⟨.data, .inferred, fun _ => true, fun _ => true, fun _ => 5⟩].foldl act blank).act
          (.commit 1)).view 0 =
      ([.makeTop, .newConflict 0 7 0 false, .makeSub 0 none, .clearConflict 1 0, .setActive 1 3 false,
        .setWholeValue 1 7 ⟨.data, .inferred, fun _ => true, fun _ => true, fun _ => 5⟩].foldl act blank).view 1 :=
  (nested_snapshots ((Machine.Reach.start blank_start).run (by decide))).1 (.commit 1) 1 0 (by decide) rfl rfl

end Config

end Ecos.Cdl
