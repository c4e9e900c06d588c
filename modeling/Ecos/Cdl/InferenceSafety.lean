import Ecos.Cdl.Inference

namespace Ecos.Cdl.Config
open Function Option Transaction Config List
variable {N S : Type*} [DecidableEq N] {s s' : Config N S} {t u p c a sub : Nat} {v n : N}

/-! The queues of the parent, which a commit leaves alone -/

theorem updateSolutions_valueChanges (u : Nat) :
    ((s.updateSolutions t v).trans u).valueChanges = (s.trans u).valueChanges := by
  have global (s : Config N S) (c : Nat) : ((updateGlobal t v s c).trans u).valueChanges = (s.trans u).valueChanges := by
    unfold updateGlobal
    dsimp only
    split
    · rfl
    · by_cases same : u = t
      · subst same
        rw [modify_self]
        rfl
      · rw [modify_other same]
        rfl
  have looked (l : List Nat) (s : Config N S) : (l.foldl (updateSolutionValidity v) s).trans = s.trans :=
    foldl_keeps trans (by intros; rfl) l
  refine (foldl_keeps (fun s : Config N S => (s.trans u).valueChanges) global _).trans ?_
  rw [looked]

theorem transfer_valueChanges : ((s.transfer t p).trans p).valueChanges = (s.trans p).valueChanges := by
  have taken (k : Bool) (c : Nat) (r : Transaction N S) : (r.takeDeleted k c).valueChanges = r.valueChanges := by
    unfold takeDeleted
    split <;> rfl
  have noted (c : Nat) (r : Transaction N S) : (r.noteResolved c).valueChanges = r.valueChanges := by
    unfold noteResolved
    split <;> rfl
  have resolved (l : List Nat) (s : Config N S) :
      ((l.foldl (commitResolved t p) s).trans p).valueChanges = (s.trans p).valueChanges := by
    refine foldl_keeps (fun s : Config N S => (s.trans p).valueChanges) (fun s c => ?_) l
    rw [commitResolved_trans]
    rfl
  have global (l : List Nat) (s : Config N S) :
      ((l.foldl (commitGlobal p) s).trans p).valueChanges = (s.trans p).valueChanges := by
    refine foldl_keeps (fun s : Config N S => (s.trans p).valueChanges) (fun s c => ?_) l
    rw [commitGlobal, modify_self, noteGlobal]
    split <;> rfl
  have deleted (conflict : Option Nat) (l : List Nat) (s : Config N S) :
      ((l.foldl (commitDeleted conflict p) s).trans p).valueChanges = (s.trans p).valueChanges := by
    refine foldl_keeps (fun s : Config N S => (s.trans p).valueChanges) (fun s c => ?_) l
    rw [commitDeleted_trans]
    split_ifs <;> simp only [noted, taken, eraseGlobal]
  have structural (l : List Nat) (s : Config N S) :
      ((l.foldl (commitDeletedStructural p) s).trans p).valueChanges = (s.trans p).valueChanges := by
    refine foldl_keeps (fun s : Config N S => (s.trans p).valueChanges) (fun s c => ?_) l
    rw [commitDeletedStructural_trans, taken]
  have change (l : List (Sigma fun _ : N => CdlValue S)) (s : Config N S) :
      ((l.foldl (commitChange p) s).trans p).valueChanges = (s.trans p).valueChanges := by
    refine foldl_keeps (fun s : Config N S => (s.trans p).valueChanges) (fun s change => ?_) l
    rw [commitChange, updateSolutions_valueChanges, modify_self]
    rfl
  have new (k : Bool) (l : List Nat) (s : Config N S) :
      ((l.foldl (commitNew k p) s).trans p).valueChanges = (s.trans p).valueChanges := by
    refine foldl_keeps (fun s : Config N S => (s.trans p).valueChanges) (fun s c => ?_) l
    change (((s.touch c).modify p fun r => r.pushNew k c).trans p).valueChanges = _
    rw [modify_self]
    rfl
  unfold transfer
  rw [modify_self]
  change valueChanges (trans _ p) = _
  rw [new, new, change, structural, deleted, global, resolved]

/-! A sub-transaction and its parent -/

theorem Tree.getWholeValue_sub (tree : s.Tree) (alive : s.alive t = true) (parent : (s.trans t).parent = some p) :
    s.getWholeValue t v = ((s.trans t).changes.lookup v).getD (s.getWholeValue p v) := by
  rw [getWholeValue_eq, getWholeValue_eq, tree.lineage_sub alive parent, map_cons]
  cases known : (s.trans t).changes.lookup v with
  | none => exact Layers.lookup_cons_none known
  | some value => exact Layers.lookup_cons_some known

theorem Tree.isActive_sub (tree : s.Tree) (alive : s.alive t = true) (parent : (s.trans t).parent = some p) :
    s.isActive t n = ((s.trans t).activeLayer n).getD (s.isActive p n) := by
  rw [isActive_eq, isActive_eq, tree.lineage_sub alive parent, map_cons]
  cases known : (s.trans t).activeLayer n with
  | none => exact Layers.lookup_cons_none known
  | some state => exact Layers.lookup_cons_some known

theorem setByUser_index : s.SetByUser t v ↔
    CdlValueSource.inferred.index < (s.getWholeValue t v).getSource.index := by
  unfold SetByUser
  cases (s.getWholeValue t v).getSource <;> simp [CdlValueSource.index]

theorem unconfirmed (tree : s.Tree) (alive : s.alive t = true) (parent : (s.trans t).parent = some p)
    (free : s.userConfirmationRequired t p = false) (user : s.SetByUser p v) :
    s.getWholeValue t v = s.getWholeValue p v ∧ (s.valuable v = true → (s.getWholeValue p v).isEnabled = true →
      s.isActive p v = true → s.isActive t v = true) := by
  have late := setByUser_index.mp user
  unfold userConfirmationRequired at free
  rw [decide_eq_false_iff_not, not_or] at free
  obtain ⟨changes, deactivated⟩ := free
  refine ⟨?_, fun valuable enabled active => ?_⟩
  · rw [tree.getWholeValue_sub alive parent]
    cases known : (s.trans t).changes.lookup v with
    | none => rfl
    | some value => exact absurd ⟨⟨v, value⟩, AList.mem_lookup_iff.mp known, late⟩ changes
  · rw [tree.isActive_sub alive parent, activeLayer]
    split
    · rfl
    · split
      · rename_i out
        exact absurd ⟨v, out, valuable, late, enabled⟩ deactivated
      · exact active

/-! One conflict -/

/-- What `resolve` keeps of the transaction that it is called for. -/
structure Respects (s s' : Config N S) (t : Nat) : Prop where
  parent : (s'.trans t).parent = (s.trans t).parent
  alive : s'.alive t = true
  valuable : s'.valuable = s.valuable
  queue : (s'.trans t).valueChanges = (s.trans t).valueChanges
  value : ∀ v, s.SetByUser t v → s'.getWholeValue t v = s.getWholeValue t v
  active : ∀ v, s.SetByUser t v → s.valuable v = true → (s.getWholeValue t v).isEnabled = true →
    s.isActive t v = true → s'.isActive t v = true

theorem Respects.trans {s'' : Config N S} (first : s.Respects s' t) (second : s'.Respects s'' t) : s.Respects s'' t := by
  have user (v : N) (set : s.SetByUser t v) : s'.SetByUser t v := by
    unfold SetByUser
    rwa [first.value v set]
  refine ⟨second.parent.trans first.parent, second.alive, second.valuable.trans first.valuable,
    second.queue.trans first.queue, fun v set => (second.value v (user v set)).trans (first.value v set), ?_⟩
  intro v set valuable enabled active
  refine second.active v (user v set) ?_ ?_ (first.active v set valuable enabled active)
  · rwa [first.valuable]
  · rwa [first.value v set]

theorem respects_view (parent : (s'.trans t).parent = (s.trans t).parent) (alive : s'.alive t = true)
    (valuable : s'.valuable = s.valuable) (queue : (s'.trans t).valueChanges = (s.trans t).valueChanges)
    (view : s'.view t = s.view t) : s.Respects s' t where
  parent := parent
  alive := alive
  valuable := valuable
  queue := queue
  value v _ := congrFun (congrArg View.value view) v
  active v _ _ _ active := (congrFun (congrArg View.active view) v).trans active

variable [BEq S]

theorem Tries.spec {es : List (Act N S)} (tries : s.Tries t c es) (filed : s.Filed) (apart : s.Apart) :
    (s.tried t c es).Filed ∧ (s.tried t c es).Apart ∧ (s.tried t c es).alive s.nextTransaction = true ∧
      ((s.tried t c es).trans s.nextTransaction).parent = some t ∧ (s.tried t c es).trans t = s.trans t ∧
      (s.tried t c es).view t = s.view t ∧ (s.tried t c es).valuable = s.valuable := by
  have alive := tries.made.1
  have other : t ≠ s.nextTransaction := ne_of_lt (filed.bound t alive)
  have there : (s.makeSub t (some c)).alive s.nextTransaction = true := update_self _ _ _
  have parent : ((s.makeSub t (some c)).trans s.nextTransaction).parent = some t := by
    simp [makeSub, Transaction.made]
  obtain ⟨filed', apart', there', parent', trans, view, valuable⟩ :=
    inside_run (filed.makeSub alive) (apart.act (e := .makeSub t (some c)) filed tries.made) there parent tries.run
  refine ⟨filed', apart', there', parent', trans.trans (update_of_ne other _ _), ?_, valuable⟩
  exact view.trans (filed.view_makeSub alive alive)

theorem Tries.unapplied {es : List (Act N S)} {e : Act N S} (tries : s.Tries t c es) (filed : s.Filed) (apart : s.Apart)
    (last : (s.tried t c es).Enabled e)
    (kind : e = .resolveFailed s.nextTransaction c ∨ e = .resolveSaved s.nextTransaction t c) :
    ((s.tried t c es).act e).view t = s.view t ∧ (((s.tried t c es).act e).trans t).core = (s.trans t).core ∧
      (((s.tried t c es).act e).trans t).valueChanges = (s.trans t).valueChanges := by
  obtain ⟨filed', apart', there, parent, trans, view, valuable⟩ := tries.spec filed apart
  have other : t ≠ s.nextTransaction := ne_of_lt (filed.bound t tries.made.1)
  have commits : e.commits = none := by
    rcases kind with rfl | rfl <;> rfl
  refine ⟨?_, ?_⟩
  · refine (filed'.view_elsewhere last there parent ?_ ?_).trans view
    · rw [commits]
      exact (some_ne_none _).symm
    · intro u q is
      rw [commits] at is
      cases is
  rcases kind with rfl | rfl
  · have same : ((s.tried t c es).resolveFailed s.nextTransaction c).trans t = (s.tried t c es).trans t :=
      within_cancel.others t other
    change ((resolveFailed _ _ c).trans t).core = _ ∧ ((resolveFailed _ _ c).trans t).valueChanges = _
    rw [same, trans]
    exact ⟨rfl, rfl⟩
  · let m := s.tried t c es
    have within : Within (· = s.nextTransaction) m ((m.saveSolution s.nextTransaction c).cancel s.nextTransaction) :=
      within_saveSolution.trans within_cancel
    let s₃ := (((m.saveSolution s.nextTransaction c).cancel s.nextTransaction).delete s.nextTransaction).touch c
    have same : s₃.trans t = s.trans t := (within.others t other).trans trans
    change ((if (s₃.conf c).transaction = none then s₃.modify t (·.noteGlobal c) else s₃).trans t).core = _ ∧
      ((if (s₃.conf c).transaction = none then s₃.modify t (·.noteGlobal c) else s₃).trans t).valueChanges = _
    split
    · rw [modify_self, core_noteGlobal, same]
      refine ⟨rfl, ?_⟩
      unfold noteGlobal
      split <;> rfl
    · rw [same]
      exact ⟨rfl, rfl⟩

/-- `resolve` takes nothing from the user, whatever the inference engine has tried. -/
theorem Resolves.respects (resolves : s.Resolves t s') (filed : s.Filed) (apart : s.Apart) :
    s'.Filed ∧ s'.Apart ∧ s.Respects s' t := by
  have frame {c : Nat} {es : List (Act N S)} {e : Act N S} (tries : s.Tries t c es) (last : (s.tried t c es).Enabled e)
      (ends : e.ends = some s.nextTransaction) : ((s.tried t c es).act e).Filed ∧ ((s.tried t c es).act e).Apart ∧
      (((s.tried t c es).act e).trans t).parent = (s.trans t).parent ∧ ((s.tried t c es).act e).alive t = true ∧
      ((s.tried t c es).act e).valuable = s.valuable := by
    obtain ⟨filed', apart', there, parent, trans, view, valuable⟩ := tries.spec filed apart
    obtain ⟨older, alive⟩ := filed'.older _ t there parent
    refine ⟨filed'.act last, apart'.act filed' last, ?_, act_alive alive ?_, act_valuable.trans valuable⟩
    · exact (act_static (filed'.bound t alive)).1.trans (congrArg Transaction.parent trans)
    · rw [ends]
      exact fun same => ne_of_gt older (some.inj same)
  cases resolves with
  | failed tries last =>
    obtain ⟨filed', apart', parent, alive, valuable⟩ := frame tries last rfl
    obtain ⟨view, -, queue⟩ := tries.unapplied filed apart last (.inl rfl)
    exact ⟨filed', apart', respects_view parent alive valuable queue view⟩
  | saved tries last =>
    obtain ⟨filed', apart', parent, alive, valuable⟩ := frame tries last rfl
    obtain ⟨view, -, queue⟩ := tries.unapplied filed apart last (.inr rfl)
    exact ⟨filed', apart', respects_view parent alive valuable queue view⟩
  | @applied c es tries last free =>
    obtain ⟨filed', apart', parent, alive, valuable⟩ := frame tries last rfl
    obtain ⟨filedM, apartM, there, child, trans, viewM, valuableM⟩ := tries.spec filed apart
    let m := s.tried t c es
    let m₁ := (m.touch c).modifyConf c fun conf => { conf with
      solutionReferences := ∅
      noSolution := false
      solution := conf.solution ++ (m.trans s.nextTransaction).changes.entries.map fun change => (change.1, change.2) }
    have filed₁ : m₁.Filed := filedM.same (sameFiles_conf fun _ => ⟨rfl, rfl, rfl, rfl⟩)
    have committed : m₁.commit s.nextTransaction = m₁.commitSub s.nextTransaction t := by
      unfold commit
      split
      · rename_i q above
        rw [some.inj (above.symm.trans child)]
      · rename_i root
        exact absurd (root.symm.trans child) (some_ne_none t).symm
    have filed₂ : (m₁.commitSub s.nextTransaction t).Filed := committed ▸ filed₁.commit last.1 last.2.1
    have view : (m.resolveApplied s.nextTransaction c).view t = m.view s.nextTransaction := by
      have ended : (m.resolveApplied s.nextTransaction c).view t = (m₁.commit s.nextTransaction).view t := view_delete
      rw [ended, committed, filed₁.view_commitSub there child filed₂ (apartM _ there)]
      exact filedM.view_conf there fun _ => ⟨rfl, rfl, rfl⟩
    have queue : ((m.resolveApplied s.nextTransaction c).trans t).valueChanges = (s.trans t).valueChanges := by
      change ((m₁.commit s.nextTransaction).trans t).valueChanges = _
      have other : t ≠ s.nextTransaction := ne_of_lt (filed.bound t tries.made.1)
      rw [committed, (commitSub_trans other).2, transfer_valueChanges]
      exact congrArg valueChanges trans
    have before (v : N) : m.getWholeValue t v = s.getWholeValue t v := congrFun (congrArg View.value viewM) v
    have user (v : N) (set : s.SetByUser t v) : m.SetByUser t v := by
      unfold SetByUser
      rwa [before v]
    have after (v : N) : (m.resolveApplied s.nextTransaction c).getWholeValue t v = m.getWholeValue s.nextTransaction v :=
      congrFun (congrArg View.value view) v
    refine ⟨filed', apart', parent, alive, valuable, queue, fun v set => ?_, fun v set option enabled active => ?_⟩
    · exact (after v).trans ((unconfirmed filedM.toTree there child free (user v set)).1.trans (before v))
    · have seen : (m.resolveApplied s.nextTransaction c).isActive t v = m.isActive s.nextTransaction v :=
        congrFun (congrArg View.active view) v
      refine seen.trans ((unconfirmed filedM.toTree there child free (user v set)).2 ?_ ?_ ?_)
      · rwa [valuableM]
      · rwa [before v]
      · exact (congrFun (congrArg View.active viewM) v).trans active

/-! Where solutions are noted -/

omit [BEq S] in
theorem transfer_globals (none : (s.trans t).globalConflictsWithSolutions = []) :
    ((s.transfer t p).trans p).globalConflictsWithSolutions.Sublist (s.trans p).globalConflictsWithSolutions := by
  have fold {α : Type _} {f : Config N S → α → Config N S} (step : ∀ s x,
      ((f s x).trans p).globalConflictsWithSolutions.Sublist (s.trans p).globalConflictsWithSolutions) (l : List α)
      (s : Config N S) :
      ((l.foldl f s).trans p).globalConflictsWithSolutions.Sublist (s.trans p).globalConflictsWithSolutions := by
    induction l generalizing s with
    | nil => exact .refl _
    | cons x l ih => exact (ih (f s x)).trans (step s x)
  let s₁ := (s.trans t).resolvedConflicts.foldl (commitResolved t p) s
  let s₃ := ((s.trans t).deletedConflicts false).foldl (commitDeleted (s.trans t).conflict p) s₁
  let s₄ := ((s.trans t).deletedConflicts true).foldl (commitDeletedStructural p) s₃
  let s₅ := (s.trans t).changes.entries.foldl (commitChange p) s₄
  let s₆ := ((s.trans t).newConflicts false).foldl (commitNew false p) s₅
  let s₇ := ((s.trans t).newConflicts true).foldl (commitNew true p) s₆
  have stages : s.transfer t p = s₇.modify p (s.trans t).mergeActive := by
    dsimp only [transfer]
    rw [none]
    rfl
  have new (k : Bool) (s : Config N S) (c : Nat) : ((commitNew k p s c).trans p).globalConflictsWithSolutions =
      (s.trans p).globalConflictsWithSolutions := by
    change (((s.touch c).modify p fun r => r.pushNew k c).trans p).globalConflictsWithSolutions = _
    rw [modify_self]
    rfl
  have structural (s : Config N S) (c : Nat) :
      ((commitDeletedStructural p s c).trans p).globalConflictsWithSolutions =
        (s.trans p).globalConflictsWithSolutions := by
    rw [commitDeletedStructural_trans, takeDeleted]
    split <;> rfl
  have first : (s₁.trans p).globalConflictsWithSolutions = (s.trans p).globalConflictsWithSolutions :=
    (foldl_commitResolved_resolved _).2.1
  have last : ((s.transfer t p).trans p).globalConflictsWithSolutions = (s₇.trans p).globalConflictsWithSolutions := by
    rw [stages, modify_self]
    rfl
  have deleted : (s₃.trans p).globalConflictsWithSolutions.Sublist (s₁.trans p).globalConflictsWithSolutions := by
    refine fold (fun s c => ?_) _ s₁
    rw [commitDeleted_globals]
    split
    · exact erase_sublist
    · exact .refl _
  have cleared : (s₄.trans p).globalConflictsWithSolutions = (s₃.trans p).globalConflictsWithSolutions :=
    foldl_keeps (fun s : Config N S => (s.trans p).globalConflictsWithSolutions) structural _
  have changed : (s₅.trans p).globalConflictsWithSolutions.Sublist (s₄.trans p).globalConflictsWithSolutions :=
    (foldl_commitChange_memory _).2.2.1
  have made : (s₇.trans p).globalConflictsWithSolutions = (s₅.trans p).globalConflictsWithSolutions :=
    (foldl_keeps (fun s : Config N S => (s.trans p).globalConflictsWithSolutions) (new true) _).trans
      (foldl_keeps (fun s : Config N S => (s.trans p).globalConflictsWithSolutions) (new false) _)
  rw [last, made, ← first]
  exact changed.trans (cleared ▸ deleted)

omit [DecidableEq N] [BEq S] in
/-- Only the toplevel's transaction notes global conflicts with solutions. -/
def Rooted (s : Config N S) : Prop :=
  ∀ t, s.alive t = true → (s.trans t).parent ≠ none → (s.trans t).globalConflictsWithSolutions = []

omit [DecidableEq N] [BEq S] in
theorem Rooted.within {W : Nat → Prop} (rooted : s.Rooted) (within : Within W s s')
    (lists : ∀ u, W u → s.alive u = true → (s.trans u).parent ≠ none →
      (s'.trans u).globalConflictsWithSolutions.Sublist (s.trans u).globalConflictsWithSolutions) : s'.Rooted := by
  intro u there sub
  rw [within.alive] at there
  rw [within.parent] at sub
  have before := rooted u there sub
  by_cases inside : W u
  · have fewer := lists u inside there sub
    rwa [before, sublist_nil] at fewer
  · rw [within.others u inside]
    exact before

omit [DecidableEq N] [BEq S] in
theorem Rooted.delete (rooted : s.Rooted) : (s.delete t).Rooted := by
  intro u there sub
  refine rooted u ?_ sub
  by_cases same : u = t
  · subst same
    simp [delete] at there
  · simpa [Config.delete, same] using there

omit [DecidableEq N] [BEq S] in
theorem Rooted.cancel (rooted : s.Rooted) : (s.cancel t).Rooted := by
  refine rooted.within within_cancel fun u same _ _ => ?_
  subst same
  rw [cancel_spec.1]
  exact nil_sublist _

omit [DecidableEq N] [BEq S] in
theorem Rooted.note (rooted : s.Rooted) {f : Conflict N S → Conflict N S} : ((s.touch c).modifyConf c f).Rooted :=
  rooted

omit [BEq S] in
theorem Rooted.commit (rooted : s.Rooted) (filed : s.Filed) (alive : s.alive t = true) : (s.commit t).Rooted := by
  unfold Config.commit
  split
  · rename_i p parent
    have none := rooted t alive (by rw [parent]; exact some_ne_none p)
    obtain ⟨self, up⟩ := commitSub_trans (s := s) (ne_of_lt (filed.older t p alive parent).1)
    refine rooted.within within_commitSub fun u here _ _ => ?_
    rcases here with rfl | rfl
    · rw [self]
      exact nil_sublist _
    · rw [up]
      exact transfer_globals none
  · obtain ⟨trans, alives, -⟩ := commitTop_spec s t
    intro u there sub
    rw [alives] at there
    rw [trans] at sub ⊢
    by_cases same : u = t
    · subst same
      rw [update_self]
      rfl
    · rw [update_of_ne same] at sub ⊢
      exact rooted u there sub

theorem Rooted.act {e : Act N S} (rooted : s.Rooted) (filed : s.Filed) (enabled : s.Enabled e) : (s.act e).Rooted := by
  have quiet {t : Nat} {f : Transaction N S → Transaction N S} {r : Config N S} (rooted : r.Rooted)
      (keeps : ∀ x, (f x).parent = x.parent ∧ (f x).conflict = x.conflict)
      (globals : ∀ x, (f x).globalConflictsWithSolutions = x.globalConflictsWithSolutions) : (r.modify t f).Rooted := by
    refine rooted.within (within_modify (W := (· = t)) rfl keeps) fun u here _ _ => ?_
    subst here
    rw [modify_self, globals]
  have access (t : Nat) (v : N) : (s.access v (s.lineage t)).2.Rooted :=
    rooted.within (within_access (W := fun _ => False) _) fun _ none => none.elim
  have made {transaction parent conflict : Option Nat} : ({ s with
      transaction := transaction
      trans := update s.trans s.nextTransaction (.made parent conflict)
      alive := update s.alive s.nextTransaction true
      stale := update s.stale s.nextTransaction false
      nextTransaction := s.nextTransaction + 1 } : Config N S).Rooted := by
    intro u there sub
    dsimp only at there sub ⊢
    by_cases same : u = s.nextTransaction
    · subst same
      rw [update_self]
      rfl
    · rw [update_of_ne same] at there sub ⊢
      exact rooted u there sub
  cases e with
  | getWholeValue t v => exact access t v
  | setWholeValue t v new =>
    change (setWholeValue _ t v _ new).Rooted
    exact quiet (access t v) (fun _ => ⟨rfl, rfl⟩) fun _ => rfl
  | setActive t n state =>
    exact quiet rooted (fun _ => ⟨rfl, rfl⟩) fun _ => rfl
  | newConflict t node property k =>
    refine rooted.within within_newConflict fun u here _ _ => ?_
    subst here
    change ((modify _ u fun r => r.pushNew k s.nextConflict).trans u).globalConflictsWithSolutions.Sublist _
    rw [modify_self]
    exact .refl _
  | clearConflict t d =>
    refine rooted.within within_clearConflict fun u here _ _ => ?_
    subst here
    change ((s.clearConflict u d).trans u).globalConflictsWithSolutions.Sublist _
    unfold clearConflict
    dsimp only
    split
    · change ((modify _ u _).trans u).globalConflictsWithSolutions.Sublist _
      rw [modify_self]
      exact .refl _
    · rw [modify_self]
      exact .refl _
  | propagateValue t =>
    change (s.propagateValue t).Rooted
    unfold propagateValue
    split
    · exact rooted
    · rename_i w vs _
      have queued : (s.modify t fun r => { r with valueChanges := vs }).Rooted :=
        quiet rooted (fun _ => ⟨rfl, rfl⟩) fun _ => rfl
      exact queued.within (within_updateSolutions (W := (· = t)) rfl) fun u _ _ _ => updateSolutions_memory.2.2 u
  | propagateActive t =>
    change (s.modify t fun r => { r with activeChanges := r.activeChanges.tail }).Rooted
    exact quiet rooted (fun _ => ⟨rfl, rfl⟩) fun _ => rfl
  | makeTop => exact made
  | makeSub t conflict => exact made
  | cancel t => exact rooted.cancel
  | commit t => exact rooted.commit filed enabled.1.1
  | delete t => exact rooted.delete
  | resolveFailed t d =>
    have ended : ((s.cancel t).delete t).Rooted := rooted.cancel.delete
    exact ended
  | resolveSaved t q d =>
    obtain ⟨innermost, parent, root, -⟩ := enabled
    have saved : (s.saveSolution t d).Rooted := by
      exact Rooted.cancel rooted.note
    have within : Within (· = t) s ((s.saveSolution t d).cancel t) := within_saveSolution.trans within_cancel
    let s₃ := (((s.saveSolution t d).cancel t).delete t).touch d
    have ended : s₃.Rooted := saved.cancel.delete
    change (if (s₃.conf d).transaction = none then s₃.modify q (·.noteGlobal d) else s₃).Rooted
    split
    · have noted : SameFiles s₃ (s₃.modify q (·.noteGlobal d)) := sameFiles_noteGlobal
      have top : (s₃.trans q).parent = none := (within.parent q).trans root
      intro u there sub
      by_cases here : u = q
      · subst here
        rw [noted.parent] at sub
        exact absurd top sub
      · rw [modify_other here] at sub ⊢
        exact ended u there sub
    · exact ended
  | resolveApplied t d =>
    have filed₁ := filed.same (sameFiles_conf (c := d) (f := fun conf => { conf with
      solutionReferences := ∅
      noSolution := false
      solution := conf.solution ++ (s.trans t).changes.entries.map fun change => (change.1, change.2) })
      fun _ => ⟨rfl, rfl, rfl, rfl⟩)
    exact (Rooted.commit rooted.note filed₁ enabled.1.1).delete

theorem Reach.rooted (reach : (system N S).Reach s) : s.Rooted := by
  have both : s.Filed ∧ s.Rooted := by
    refine reach.kept (P := fun s : Config N S => s.Filed ∧ s.Rooted) (fun s start => ⟨.start start, ?_⟩)
      fun s e both allowed => ⟨both.1.act allowed, both.2.act both.1 allowed⟩
    intro t there
    simp [start.alive t] at there
  exact both.2

/-! All conflicts -/

theorem propagates_run {es : List (Act N S)} (reach : (system N S).Reach s) (alive : s.alive t = true)
    (run : Machine.Admits (fun r e => Enabled r e ∧ e.plain = some t) act s es) : (system N S).Reach (es.foldl act s) ∧
      (es.foldl act s).alive t = true ∧ ((es.foldl act s).trans t).parent = (s.trans t).parent := by
  induction es generalizing s with
  | nil => exact ⟨reach, alive, rfl⟩
  | cons e es ih =>
    obtain ⟨⟨enabled, plain⟩, rest⟩ := run
    have next : (system N S).Reach (s.act e) := .next reach ⟨e, enabled, rfl⟩
    have stays : e.ends ≠ some t := by
      cases e <;> first | exact (some_ne_none t).symm | cases plain
    obtain ⟨reach', alive', parent'⟩ := ih next (act_alive alive stays) rest
    exact ⟨reach', alive', parent'.trans (act_static ((Reach.filed reach).bound t alive)).1⟩

theorem tried_reach {es : List (Act N S)} (reach : (system N S).Reach s) (tries : s.Tries t c es) :
    (system N S).Reach (s.tried t c es) := by
  have below (es : List (Act N S)) (r : Config N S) (reach : (system N S).Reach r)
      (run : Machine.Admits (fun r e => r.Inside s.nextTransaction e) act r es) : (system N S).Reach (es.foldl act r) := by
    induction es generalizing r with
    | nil => exact reach
    | cons e es ih => exact ih _ (.next reach ⟨e, run.1.1, rfl⟩) run.2
  exact below es _ (.next reach ⟨_, tries.made, rfl⟩) tries.run

theorem Resolves.reach (resolves : s.Resolves t s') (reach : (system N S).Reach s) : (system N S).Reach s' := by
  cases resolves with
  | failed tries last => exact .next (tried_reach reach tries) ⟨_, last, rfl⟩
  | saved tries last => exact .next (tried_reach reach tries) ⟨_, last, rfl⟩
  | applied tries last free => exact .next (tried_reach reach tries) ⟨_, last, rfl⟩

theorem Infers.respects (infers : Infers t s s') (reach : (system N S).Reach s) (alive : s.alive t = true) :
    (system N S).Reach s' ∧ s.Respects s' t := by
  induction infers with
  | refl => exact ⟨reach, respects_view rfl alive rfl rfl rfl⟩
  | tail _ last ih =>
    exact ⟨last.reach ih.1, ih.2.trans (last.respects (Reach.filed ih.1) (Reach.apart ih.1)).2.2⟩

theorem Tries.stored {es : List (Act N S)} (tries : s.Tries t c es) (reach : (system N S).Reach s)
    (last : (s.tried t c es).Enabled (.resolveSaved s.nextTransaction t c)) :
    (((s.tried t c es).resolveSaved s.nextTransaction t c).conf c).solution =
      (((s.tried t c es).trans s.nextTransaction).changes.entries.filter fun change =>
        (s.tried t c es).modifiable change.1).map fun change => (change.1, change.2) := by
  let m := s.tried t c es
  let sub := s.nextTransaction
  let found := ((m.trans sub).changes.entries.filter fun change => m.modifiable change.1).map fun change => (change.1, change.2)
  obtain ⟨-, -, there, parent, -⟩ := tries.spec (Reach.filed reach) (Reach.apart reach)
  have none : (m.trans sub).globalConflictsWithSolutions = [] :=
    Reach.rooted (tried_reach reach tries) sub there (by rw [parent]; exact some_ne_none t)
  have cancelled (r : Config N S) (empty : (r.trans sub).globalConflictsWithSolutions = []) :
      (r.cancel sub).conf = r.conf ∧ ((r.cancel sub).trans sub).globalConflictsWithSolutions = [] := by
    refine ⟨?_, by rw [cancel_spec.1]; rfl⟩
    change ((r.trans sub).globalConflictsWithSolutions.foldl clearSolution _).conf = r.conf
    rw [empty]
    have resolved (l : List Nat) (r : Config N S) : (l.foldl (cancelResolved sub) r).conf = r.conf :=
      foldl_keeps conf (fun _ _ => cancelResolved_conf) l
    have destroyed (l : List Nat) (r : Config N S) : (l.foldl destroy r).conf = r.conf :=
      foldl_keeps conf (by intros; rfl) l
    exact (resolved _ _).trans ((destroyed _ _).trans (destroyed _ _))
  let m₁ := (m.touch c).modifyConf c fun conf => { conf with solution := conf.solution ++ found }
  obtain ⟨first, empty⟩ := cancelled m₁ none
  obtain ⟨second, -⟩ := cancelled (m₁.cancel sub) empty
  have unsolved : (m.conf c).solution = [] := by
    have known := last.2.2.2.2.2.2.1
    simpa [Conflict.hasKnownSolution] using known
  have stored : (m₁.conf c).solution = found := by
    change (update m.conf c _ c).solution = found
    rw [update_self]
    change (m.conf c).solution ++ found = found
    rw [unsolved, nil_append]
  let s₃ := (((m.saveSolution sub c).cancel sub).delete sub).touch c
  have kept : s₃.conf = m₁.conf := second.trans first
  change ((if (s₃.conf c).transaction = Option.none then s₃.modify t (·.noteGlobal c) else s₃).conf c).solution = found
  split
  · change (s₃.conf c).solution = found
    rw [kept, stored]
  · rw [kept, stored]

/-- Automatic inference never overrides the user. Once `body` has propagated the changes, nothing that comes from a
wizard or the user gets another value or source, and nothing of it that is enabled becomes inactive, neither while
`resolve` is at work nor in what is committed in the end. A solution that would do so is only stored. -/
theorem inference_respects_user (reach : (system N S).Reach s) (alive : s.alive t = true)
    (root : (s.trans t).parent = none) (body : Body t s s') : ∃ r m, Propagates t s r ∧ Infers t r m ∧ s' = m.commit t ∧
    (∀ m', Infers t r m' → r.Respects m' t ∧ ∀ c es, m'.Tries t c es → (m'.tried t c es).view t = m'.view t ∧
      ∀ saved, saved = (m'.tried t c es).resolveSaved m'.nextTransaction t c →
        (m'.tried t c es).Enabled (.resolveSaved m'.nextTransaction t c) →
          saved.view t = m'.view t ∧ (saved.trans t).core = (m'.trans t).core ∧
          (saved.conf c).solution = (((m'.tried t c es).trans m'.nextTransaction).changes.entries.filter fun change =>
            (m'.tried t c es).modifiable change.1).map fun change => (change.1, change.2)) ∧
    ∀ v, r.SetByUser t v → s'.value v = r.getWholeValue t v ∧ (r.valuable v = true →
      (r.getWholeValue t v).isEnabled = true → r.isActive t v = true → s'.active v = true) := by
  cases body with
  | again propagates infers progress body =>
    obtain ⟨es, run, rfl, quiet, -⟩ := propagates
    obtain ⟨reach', alive', -⟩ := propagates_run reach alive run
    exact absurd ((infers.respects reach' alive').2.queue.trans quiet) progress
  | @done _ r m propagates infers quiet last =>
    obtain ⟨es, run, rfl, quiet, -⟩ := id propagates
    obtain ⟨reach', alive', parent'⟩ := propagates_run reach alive run
    obtain ⟨reachM, respects⟩ := infers.respects reach' alive'
    refine ⟨_, m, propagates, infers, rfl, fun m' infers' => ?_, fun v set => ?_⟩
    · obtain ⟨reach'', respects'⟩ := infers'.respects reach' alive'
      have filed := Reach.filed reach''
      have apart := Reach.apart reach''
      refine ⟨respects', fun c es tries => ⟨(tries.spec filed apart).2.2.2.2.2.1, ?_⟩⟩
      rintro saved rfl last
      obtain ⟨view, core, -⟩ := tries.unapplied filed apart last (.inr rfl)
      exact ⟨view, core, tries.stored reach'' last⟩
    · have rootM : (m.trans t).parent = none := respects.parent.trans (parent'.trans root)
      have top : m.commit t = m.commitTop t := by
        unfold commit
        rw [rootM]
      have view : (m.commit t).ownView = m.view t :=
        top ▸ (Reach.filed reachM).view_commitTop respects.alive rootM (Reach.apart reachM t respects.alive)
      refine ⟨(congrFun (congrArg View.value view) v).trans (respects.value v set), fun option enabled active => ?_⟩
      exact (congrFun (congrArg View.active view) v).trans (respects.active v set option enabled active)

/-- The user has set a value, and the only solution of a conflict is to change it. -/
theorem inference_respects_user_saved : ∃ s' : Config Nat Nat, Body 0 ([.makeTop, .newConflict 0 7 0 false,
      .setWholeValue 0 7 ⟨.data, .user, fun _ => true, fun _ => true, fun _ => 4⟩].foldl act blank) s' ∧
    ∃ r m, Propagates 0 ([.makeTop, .newConflict 0 7 0 false,
      .setWholeValue 0 7 ⟨.data, .user, fun _ => true, fun _ => true, fun _ => 4⟩].foldl act blank) r ∧ Infers 0 r m ∧
      s' = m.commit 0 ∧ ∀ v, r.SetByUser 0 v → s'.value v = r.getWholeValue 0 v := by
  let s := [.makeTop, .newConflict 0 7 0 false,
    .setWholeValue 0 7 ⟨.data, .user, fun _ => true, fun _ => true, fun _ => 4⟩].foldl act blank
  let r := [.propagateValue 0].foldl act s
  let es : List (Act Nat Nat) :=
    [.clearConflict 1 0, .setWholeValue 1 7 ⟨.data, .inferred, fun _ => true, fun _ => true, fun _ => 5⟩]
  have propagates : Propagates 0 s r := ⟨[.propagateValue 0], by decide, rfl, by decide, by decide⟩
  have tries : r.Tries 0 0 es :=
    ⟨by decide, ⟨by decide, ⟨1, rfl, by decide⟩, by decide⟩, ⟨by decide, ⟨1, rfl, by decide⟩, by decide⟩, trivial⟩
  have resolves : r.Resolves 0 ((r.tried 0 0 es).resolveSaved 1 0 0) := .saved tries (by decide)
  have body : Body 0 s (((r.tried 0 0 es).resolveSaved 1 0 0).commit 0) :=
    .done propagates (.single resolves) (by decide) (by decide)
  obtain ⟨r', m, propagates', infers, same, -, kept⟩ :=
    inference_respects_user ((Machine.Reach.start blank_start).run (by decide)) (by decide) (by decide) body
  exact ⟨_, body, r', m, propagates', infers, same, fun v set => (kept v set).1⟩

end Ecos.Cdl.Config
