import Ecos.Cdl.Transact

namespace Ecos.Cdl.Config
variable {N S : Type*} {s s' : Config N S} {t u p c d : Nat} {v : N} {k : Bool}

/-! What an operation leaves alone -/

/-- The same conflicts in the same hands, whatever has happened to values and solutions. -/
structure SameFiles (s s' : Config N S) : Prop where
  parent : ∀ t, (s'.trans t).parent = (s.trans t).parent
  conflict : ∀ t, (s'.trans t).conflict = (s.trans t).conflict
  new : ∀ t, (s'.trans t).newConflicts = (s.trans t).newConflicts
  deleted : ∀ t, (s'.trans t).deletedConflicts = (s.trans t).deletedConflicts
  resolved : ∀ t, (s'.trans t).resolvedConflicts = (s.trans t).resolvedConflicts
  owner : ∀ c, (s'.conf c).transaction = (s.conf c).transaction
  structural : ∀ c, (s'.conf c).structural = (s.conf c).structural
  node : ∀ c, (s'.conf c).node = (s.conf c).node
  property : ∀ c, (s'.conf c).property = (s.conf c).property
  conflicts : s'.conflicts = s.conflicts
  transaction : s'.transaction = s.transaction
  nextConflict : s'.nextConflict = s.nextConflict
  alive : s'.alive = s.alive
  stale : s'.stale = s.stale
  nextTransaction : s'.nextTransaction = s.nextTransaction

theorem SameFiles.rfl : SameFiles s s := by
  constructor <;> simp

theorem SameFiles.trans {s'' : Config N S} (first : SameFiles s s') (second : SameFiles s' s'') : SameFiles s s'' where
  parent t := (second.parent t).trans (first.parent t)
  conflict t := (second.conflict t).trans (first.conflict t)
  new t := (second.new t).trans (first.new t)
  deleted t := (second.deleted t).trans (first.deleted t)
  resolved t := (second.resolved t).trans (first.resolved t)
  owner c := (second.owner c).trans (first.owner c)
  structural c := (second.structural c).trans (first.structural c)
  node c := (second.node c).trans (first.node c)
  property c := (second.property c).trans (first.property c)
  conflicts := second.conflicts.trans first.conflicts
  transaction := second.transaction.trans first.transaction
  nextConflict := second.nextConflict.trans first.nextConflict
  alive := second.alive.trans first.alive
  stale := second.stale.trans first.stale
  nextTransaction := second.nextTransaction.trans first.nextTransaction

theorem SameFiles.foldl {α : Type*} {f : Config N S → α → Config N S} (step : ∀ s x, SameFiles s (f s x)) (l : List α) :
    SameFiles s (l.foldl f s) := by
  induction l generalizing s with
  | nil => exact .rfl
  | cons x l ih => exact (step s x).trans ih

theorem sameFiles_touch : SameFiles s (s.touch c) := by
  constructor <;> simp [touch]

theorem sameFiles_destroy : SameFiles s (s.destroy c) := by
  constructor <;> simp [destroy]

theorem sameFiles_modifyConf {f : Conflict N S → Conflict N S}
    (keeps : ∀ conf, (f conf).transaction = conf.transaction ∧ (f conf).structural = conf.structural ∧
      (f conf).node = conf.node ∧ (f conf).property = conf.property) : SameFiles s (s.modifyConf c f) := by
  have fields (d : Nat) : ((s.modifyConf c f).conf d).transaction = (s.conf d).transaction ∧
      ((s.modifyConf c f).conf d).structural = (s.conf d).structural ∧
      ((s.modifyConf c f).conf d).node = (s.conf d).node ∧
      ((s.modifyConf c f).conf d).property = (s.conf d).property := by
    by_cases is : d = c
    · subst is
      simpa [modifyConf] using keeps (s.conf d)
    · simp [modifyConf, is]
  exact {
    parent := fun _ => Eq.refl _
    conflict := fun _ => Eq.refl _
    new := fun _ => Eq.refl _
    deleted := fun _ => Eq.refl _
    resolved := fun _ => Eq.refl _
    owner := fun d => (fields d).1
    structural := fun d => (fields d).2.1
    node := fun d => (fields d).2.2.1
    property := fun d => (fields d).2.2.2
    conflicts := Eq.refl _
    transaction := Eq.refl _
    nextConflict := Eq.refl _
    alive := Eq.refl _
    stale := Eq.refl _
    nextTransaction := Eq.refl _ }

/-- The containers for conflicts are as they were, but for the one of conflicts with solutions. -/
structure SameLists (this this' : Transaction N S) : Prop where
  parent : this'.parent = this.parent
  conflict : this'.conflict = this.conflict
  new : this'.newConflicts = this.newConflicts
  deleted : this'.deletedConflicts = this.deletedConflicts
  resolved : this'.resolvedConflicts = this.resolvedConflicts

theorem sameFiles_modify {f : Transaction N S → Transaction N S} (keeps : ∀ t, SameLists t (f t)) :
    SameFiles s (s.modify t f) := by
  have fields (u : Nat) : SameLists (s.trans u) ((s.modify t f).trans u) := by
    by_cases is : u = t
    · subst is
      simpa [modify] using keeps (s.trans u)
    · simpa [modify, is] using ⟨rfl, rfl, rfl, rfl, rfl⟩
  exact {
    parent := fun u => (fields u).parent
    conflict := fun u => (fields u).conflict
    new := fun u => (fields u).new
    deleted := fun u => (fields u).deleted
    resolved := fun u => (fields u).resolved
    owner := fun _ => Eq.refl _
    structural := fun _ => Eq.refl _
    node := fun _ => Eq.refl _
    property := fun _ => Eq.refl _
    conflicts := Eq.refl _
    transaction := Eq.refl _
    nextConflict := Eq.refl _
    alive := Eq.refl _
    stale := Eq.refl _
    nextTransaction := Eq.refl _ }

theorem sameFiles_clearSolution : SameFiles s (clearSolution s c) :=
  sameFiles_touch.trans (sameFiles_modifyConf fun _ => ⟨rfl, rfl, rfl, rfl⟩)

theorem sameFiles_propagateActive : SameFiles s (s.propagateActive t) :=
  sameFiles_modify fun _ => ⟨rfl, rfl, rfl, rfl, rfl⟩

/-- Only transactions of `W` are worked on, and nothing else but solutions and memory is changed. -/
structure Within (W : Nat → Prop) (s s' : Config N S) : Prop where
  others : ∀ u, ¬ W u → s'.trans u = s.trans u
  parent : ∀ u, (s'.trans u).parent = (s.trans u).parent
  conflict : ∀ u, (s'.trans u).conflict = (s.trans u).conflict
  alive : s'.alive = s.alive
  stale : ∀ u, s.stale u = true → s'.stale u = true
  transaction : s'.transaction = s.transaction
  nextTransaction : s'.nextTransaction = s.nextTransaction
  value : s'.value = s.value
  active : s'.active = s.active
  valuable : s'.valuable = s.valuable
  conflicts : s'.conflicts = s.conflicts
  node : ∀ c < s.nextConflict, (s'.conf c).node = (s.conf c).node
  property : ∀ c < s.nextConflict, (s'.conf c).property = (s.conf c).property
  structural : ∀ c < s.nextConflict, (s'.conf c).structural = (s.conf c).structural
  nextConflict : s.nextConflict ≤ s'.nextConflict

variable {W : Nat → Prop}

theorem Within.rfl : Within W s s := by
  constructor <;> simp

theorem Within.trans {s'' : Config N S} (first : Within W s s') (second : Within W s' s'') : Within W s s'' where
  others u outside := (second.others u outside).trans (first.others u outside)
  parent u := (second.parent u).trans (first.parent u)
  conflict u := (second.conflict u).trans (first.conflict u)
  alive := second.alive.trans first.alive
  stale u was := second.stale u (first.stale u was)
  transaction := second.transaction.trans first.transaction
  nextTransaction := second.nextTransaction.trans first.nextTransaction
  value := second.value.trans first.value
  active := second.active.trans first.active
  valuable := second.valuable.trans first.valuable
  conflicts := second.conflicts.trans first.conflicts
  node c old := (second.node c (lt_of_lt_of_le old first.nextConflict)).trans (first.node c old)
  property c old := (second.property c (lt_of_lt_of_le old first.nextConflict)).trans (first.property c old)
  structural c old := (second.structural c (lt_of_lt_of_le old first.nextConflict)).trans (first.structural c old)
  nextConflict := le_trans first.nextConflict second.nextConflict

theorem Within.foldl {α : Type*} {f : Config N S → α → Config N S} (step : ∀ s x, Within W s (f s x)) (l : List α) :
    Within W s (l.foldl f s) := by
  induction l generalizing s with
  | nil => exact .rfl
  | cons x l ih => exact (step s x).trans ih

theorem Within.of_same (files : SameFiles s s') (others : ∀ u, ¬ W u → s'.trans u = s.trans u) (value : s'.value = s.value)
    (active : s'.active = s.active) (valuable : s'.valuable = s.valuable) : Within W s s' where
  others := others
  parent := files.parent
  conflict := files.conflict
  alive := files.alive
  stale u was := (congrFun files.stale u).trans was
  transaction := files.transaction
  nextTransaction := files.nextTransaction
  value := value
  active := active
  valuable := valuable
  conflicts := files.conflicts
  node c _ := files.node c
  property c _ := files.property c
  structural c _ := files.structural c
  nextConflict := files.nextConflict.ge

theorem within_touch : Within W s (s.touch c) :=
  .of_same sameFiles_touch (fun _ _ => Eq.refl _) (Eq.refl _) (Eq.refl _) (Eq.refl _)

theorem within_destroy : Within W s (s.destroy c) :=
  .of_same sameFiles_destroy (fun _ _ => Eq.refl _) (Eq.refl _) (Eq.refl _) (Eq.refl _)

theorem within_modifyConf {f : Conflict N S → Conflict N S}
    (keeps : ∀ conf, (f conf).structural = conf.structural ∧ (f conf).node = conf.node ∧
      (f conf).property = conf.property) : Within W s (s.modifyConf c f) := by
  have fields (d : Nat) : ((s.modifyConf c f).conf d).structural = (s.conf d).structural ∧
      ((s.modifyConf c f).conf d).node = (s.conf d).node ∧
      ((s.modifyConf c f).conf d).property = (s.conf d).property := by
    by_cases is : d = c
    · subst is
      simpa [modifyConf] using keeps (s.conf d)
    · simp [modifyConf, is]
  exact ⟨fun _ _ => Eq.refl _, fun _ => Eq.refl _, fun _ => Eq.refl _, Eq.refl _, fun _ was => was, Eq.refl _,
    Eq.refl _, Eq.refl _, Eq.refl _, Eq.refl _, Eq.refl _, fun d _ => (fields d).2.1, fun d _ => (fields d).2.2,
    fun d _ => (fields d).1, le_rfl⟩

theorem within_modify {f : Transaction N S → Transaction N S} (inside : W t)
    (keeps : ∀ t, (f t).parent = t.parent ∧ (f t).conflict = t.conflict) : Within W s (s.modify t f) := by
  have fields (u : Nat) : ((s.modify t f).trans u).parent = (s.trans u).parent ∧
      ((s.modify t f).trans u).conflict = (s.trans u).conflict := by
    by_cases is : u = t
    · subst is
      simpa [modify] using keeps (s.trans u)
    · simp [modify, is]
  refine ⟨?_, fun u => (fields u).1, fun u => (fields u).2, Eq.refl _, fun _ was => was, Eq.refl _, Eq.refl _, Eq.refl _,
    Eq.refl _, Eq.refl _, Eq.refl _, fun _ _ => Eq.refl _, fun _ _ => Eq.refl _, fun _ _ => Eq.refl _, le_rfl⟩
  intro u outside
  have other : u ≠ t := fun is => outside (is ▸ inside)
  simp [modify, other]

theorem within_newConflict {node : N} {property : Nat} : Within (· = t) s (s.newConflict t node property k) := by
  refine Within.trans ?_ (within_modify rfl fun _ => ⟨rfl, rfl⟩)
  refine ⟨fun _ _ => rfl, fun _ => rfl, fun _ => rfl, rfl, fun _ was => was, rfl, rfl, rfl, rfl, rfl, rfl, ?_, ?_, ?_,
    Nat.le_succ _⟩
  · intro c old
    simp [ne_of_lt old]
  · intro c old
    simp [ne_of_lt old]
  · intro c old
    simp [ne_of_lt old]

theorem within_clearConflict : Within (· = t) s (s.clearConflict t c) := by
  unfold clearConflict
  dsimp only
  split
  · refine Within.trans (Within.trans (within_touch (c := c)) ?_) within_destroy
    exact within_modify rfl fun _ => ⟨rfl, rfl⟩
  · exact within_touch.trans (within_modify rfl fun _ => ⟨rfl, rfl⟩)

theorem within_clearSolution : Within W s (clearSolution s c) :=
  within_touch.trans (within_modifyConf fun _ => ⟨rfl, rfl, rfl⟩)

theorem within_cancelResolved : Within W s (cancelResolved t s c) := by
  unfold cancelResolved
  dsimp only
  split
  · exact within_touch.trans within_destroy
  · exact within_touch

theorem within_cancel : Within (· = t) s (s.cancel t) := by
  refine Within.trans ?_ (within_modify rfl fun _ => ⟨rfl, rfl⟩)
  refine Within.trans ?_ (Within.foldl (fun _ _ => within_clearSolution) _)
  refine Within.trans ?_ (Within.foldl (fun _ _ => within_cancelResolved) _)
  exact (Within.foldl (fun _ _ => within_destroy) _).trans (Within.foldl (fun _ _ => within_destroy) _)

variable [DecidableEq N]

theorem updateSolutionValidity_keeps (conf : Conflict N S) :
    (conf.updateSolutionValidity v).transaction = conf.transaction ∧
      (conf.updateSolutionValidity v).structural = conf.structural ∧
      (conf.updateSolutionValidity v).node = conf.node ∧ (conf.updateSolutionValidity v).property = conf.property := by
  unfold Conflict.updateSolutionValidity
  split <;> exact ⟨rfl, rfl, rfl, rfl⟩

theorem sameFiles_updateSolutionValidity : SameFiles s (updateSolutionValidity v s c) :=
  sameFiles_touch.trans (sameFiles_modifyConf updateSolutionValidity_keeps)

theorem sameFiles_updateGlobal : SameFiles s (updateGlobal t v s c) := by
  unfold updateGlobal
  dsimp only
  split
  · exact sameFiles_updateSolutionValidity
  · exact sameFiles_updateSolutionValidity.trans (sameFiles_modify fun _ => ⟨rfl, rfl, rfl, rfl, rfl⟩)

theorem sameFiles_updateSolutions : SameFiles s (s.updateSolutions t v) :=
  (SameFiles.foldl (fun _ _ => sameFiles_updateSolutionValidity) _).trans
    (SameFiles.foldl (fun _ _ => sameFiles_updateGlobal) _)

/-- One step of the search notes the value on the conflict being solved, and ends where the value was changed. -/
theorem access_cons (s : Config N S) (v : N) (a : Nat) (above : List Nat) : ∃ noted : Config N S,
    ((s.trans a).conflict = none ∧ noted = s ∨ ∃ c, (s.trans a).conflict = some c ∧
      noted = (s.touch c).modifyConf c fun conf =>
        { conf with solutionReferences := insert v conf.solutionReferences }) ∧
    ((∃ value, (s.trans a).changes.lookup v = some value ∧ s.access v (a :: above) = (value, noted)) ∨
      (s.trans a).changes.lookup v = none ∧ s.access v (a :: above) = noted.access v above) := by
  rw [access]
  cases (s.trans a).conflict with
  | none =>
    refine ⟨s, .inl ⟨rfl, rfl⟩, ?_⟩
    dsimp only
    split
    · exact .inl ⟨_, ‹_›, rfl⟩
    · exact .inr ⟨‹_›, rfl⟩
  | some c =>
    refine ⟨_, .inr ⟨c, rfl, rfl⟩, ?_⟩
    dsimp only
    split
    · exact .inl ⟨_, ‹_›, rfl⟩
    · exact .inr ⟨‹_›, rfl⟩

theorem sameFiles_access (above : List Nat) : SameFiles s (s.access v above).2 := by
  induction above generalizing s with
  | nil => exact .rfl
  | cons a above ih =>
    obtain ⟨noted, how, run⟩ := s.access_cons v a above
    have same : SameFiles s noted := by
      rcases how with ⟨-, rfl⟩ | ⟨c, -, rfl⟩
      · exact .rfl
      · exact sameFiles_touch.trans (sameFiles_modifyConf fun _ => ⟨rfl, rfl, rfl, rfl⟩)
    rcases run with ⟨value, -, run⟩ | ⟨-, run⟩
    · rwa [run]
    · rw [run]
      exact same.trans ih

theorem sameFiles_setWholeValue [BEq S] {old new : CdlValue S} : SameFiles s (s.setWholeValue t v old new) :=
  sameFiles_modify fun _ => ⟨rfl, rfl, rfl, rfl, rfl⟩

theorem sameFiles_setActive {n : N} {state : Bool} : SameFiles s (s.setActive t n state) :=
  sameFiles_modify fun _ => ⟨rfl, rfl, rfl, rfl, rfl⟩

theorem sameFiles_propagateValue : SameFiles s (s.propagateValue t) := by
  unfold propagateValue
  split
  · exact .rfl
  · refine SameFiles.trans ?_ sameFiles_updateSolutions
    exact sameFiles_modify fun _ => ⟨rfl, rfl, rfl, rfl, rfl⟩

theorem within_updateSolutionValidity : Within W s (updateSolutionValidity v s c) :=
  within_touch.trans (within_modifyConf fun conf =>
    ⟨(updateSolutionValidity_keeps conf).2.1, (updateSolutionValidity_keeps conf).2.2⟩)

theorem within_updateSolutions (inside : W t) : Within W s (s.updateSolutions t v) := by
  refine Within.trans (Within.foldl (fun _ _ => within_updateSolutionValidity) _) (Within.foldl ?_ _)
  intro s c
  unfold updateGlobal
  dsimp only
  split
  · exact within_updateSolutionValidity
  · exact within_updateSolutionValidity.trans (within_modify inside fun _ => ⟨rfl, rfl⟩)

theorem within_access (above : List Nat) : Within W s (s.access v above).2 := by
  induction above generalizing s with
  | nil => exact .rfl
  | cons a above ih =>
    obtain ⟨noted, how, run⟩ := s.access_cons v a above
    have same : Within W s noted := by
      rcases how with ⟨-, rfl⟩ | ⟨c, -, rfl⟩
      · exact .rfl
      · exact within_touch.trans (within_modifyConf fun _ => ⟨rfl, rfl, rfl⟩)
    rcases run with ⟨value, -, run⟩ | ⟨-, run⟩
    · rwa [run]
    · rw [run]
      exact same.trans ih

theorem within_propagateValue : Within (· = t) s (s.propagateValue t) := by
  unfold propagateValue
  split
  · exact .rfl
  · refine Within.trans ?_ (within_updateSolutions rfl)
    exact within_modify rfl fun _ => ⟨rfl, rfl⟩

end Ecos.Cdl.Config

namespace Ecos.Cdl.Config
open Function Option Transaction List
variable {N S : Type*} {s s' : Config N S} {t u p c a : Nat} {v : N} {k : Bool}

/-- Transactions are made from older ones, which stay as long as they have children. There is one for the toplevel. -/
structure Tree (s : Config N S) : Prop where
  older : ∀ t p, s.alive t = true → (s.trans t).parent = some p → p < t ∧ s.alive p = true
  bound : ∀ t, s.alive t = true → t < s.nextTransaction
  root : ∀ t, s.alive t = true → (s.trans t).parent = none → s.transaction = some t

attribute [local simp] lineageFrom lineage in
theorem Tree.induct {P : Nat → Prop} (tree : s.Tree) (root : ∀ t, s.alive t = true → (s.trans t).parent = none → P t)
    (sub : ∀ t p, s.alive t = true → (s.trans t).parent = some p → P p → P t) (t : Nat) : s.alive t = true → P t := by
  induction t using Nat.strong_induction_on with
  | _ t ih =>
    intro alive
    cases parent : (s.trans t).parent with
    | none => exact root t alive parent
    | some p =>
      obtain ⟨older, there⟩ := tree.older t p alive parent
      exact sub t p alive parent (ih p older there)

theorem Tree.lineageFrom (tree : s.Tree) (alive : s.alive t = true) {n : Nat} (enough : t ≤ n) :
    s.lineageFrom n t = s.lineage t := by
  induction t using Nat.strong_induction_on generalizing n with
  | _ t ih =>
    cases parent : (s.trans t).parent with
    | none =>
      have single (m : Nat) : s.lineageFrom m t = [t] := by
        cases m with
        | zero => rfl
        | succ m => rw [Config.lineageFrom, parent]
      rw [lineage, single, single]
    | some p =>
      obtain ⟨older, there⟩ := tree.older t p alive parent
      have up (m : Nat) (holds : t ≤ m) : s.lineageFrom m t = t :: s.lineage p := by
        cases m with
        | zero => omega
        | succ m =>
          rw [Config.lineageFrom, parent]
          exact congrArg _ (ih p older there (by omega))
      rw [lineage, up n enough, up t (le_refl t)]

theorem lineage_root (parent : (s.trans t).parent = none) : s.lineage t = [t] := by
  unfold lineage
  cases t with
  | zero => rfl
  | succ n => rw [lineageFrom, parent]

theorem Tree.lineage_sub (tree : s.Tree) (alive : s.alive t = true) (parent : (s.trans t).parent = some p) :
    s.lineage t = t :: s.lineage p := by
  obtain ⟨older, there⟩ := tree.older t p alive parent
  unfold lineage
  cases t with
  | zero => omega
  | succ n =>
    rw [Config.lineageFrom, parent]
    exact congrArg _ (tree.lineageFrom there (by omega))

/-- The strict ancestors. -/
def above (s : Config N S) (t : Nat) : List Nat :=
  match (s.trans t).parent with
  | none => []
  | some p => s.lineage p

attribute [local simp] above in
theorem Tree.lineage_cons (tree : s.Tree) (alive : s.alive t = true) : s.lineage t = t :: s.above t := by
  unfold above
  cases parent : (s.trans t).parent with
  | none => exact lineage_root parent
  | some p => exact tree.lineage_sub alive parent

theorem above_sub (parent : (s.trans t).parent = some p) : s.above t = s.lineage p := by
  rw [above, parent]

theorem above_root (parent : (s.trans t).parent = none) : s.above t = [] := by
  rw [above, parent]

section
variable (tree : s.Tree)
include tree

theorem Tree.lineage_alive (alive : s.alive t = true) : ∀ a ∈ s.lineage t, s.alive a = true ∧ a ≤ t := by
  refine tree.induct (P := fun t => ∀ a ∈ s.lineage t, s.alive a = true ∧ a ≤ t) ?_ ?_ t alive
  · intro t alive parent a mem
    rw [lineage_root parent, mem_singleton] at mem
    subst mem
    exact ⟨alive, le_rfl⟩
  · intro t p alive parent ih a mem
    rw [tree.lineage_sub alive parent, mem_cons] at mem
    rcases mem with rfl | mem
    · exact ⟨alive, le_rfl⟩
    · obtain ⟨there, le⟩ := ih a mem
      exact ⟨there, le_trans le (tree.older t p alive parent).1.le⟩

theorem Tree.above_alive (alive : s.alive t = true) : ∀ a ∈ s.above t, s.alive a = true ∧ a < t := by
  intro a mem
  cases parent : (s.trans t).parent with
  | none =>
    rw [above_root parent] at mem
    exact absurd mem not_mem_nil
  | some p =>
    rw [above_sub parent] at mem
    obtain ⟨older, there⟩ := tree.older t p alive parent
    obtain ⟨alive', le⟩ := tree.lineage_alive there a mem
    exact ⟨alive', lt_of_le_of_lt le older⟩

theorem Tree.leaf_above (leaf : s.Leaf t) (alive : s.alive u = true) : t ∉ s.above u := by
  refine tree.induct (P := fun u => t ∉ s.above u) ?_ ?_ u alive
  · intro u alive parent
    rw [above_root parent]
    exact not_mem_nil
  · intro u p alive parent ih mem
    obtain ⟨older, there⟩ := tree.older u p alive parent
    rw [above_sub parent, tree.lineage_cons there, mem_cons] at mem
    rcases mem with rfl | mem
    · exact leaf u (tree.bound u alive) alive parent
    · exact ih mem

theorem Tree.leaf_lineage (leaf : s.Leaf t) (alive : s.alive u = true) (other : u ≠ t) : t ∉ s.lineage u := by
  rw [tree.lineage_cons alive, mem_cons]
  rintro (is | mem)
  · exact other is.symm
  · exact tree.leaf_above leaf alive mem

theorem Tree.above_child (alive : s.alive u = true) (up : p ∈ s.above u) :
    ∃ w ∈ s.lineage u, (s.trans w).parent = some p := by
  refine tree.induct (P := fun u => p ∈ s.above u → ∃ w ∈ s.lineage u, (s.trans w).parent = some p) ?_ ?_ u alive up
  · intro u alive parent up
    rw [above_root parent] at up
    exact absurd up not_mem_nil
  · intro u q alive parent ih up
    obtain ⟨older, there⟩ := tree.older u q alive parent
    rw [above_sub parent, tree.lineage_cons there, mem_cons] at up
    rw [tree.lineage_sub alive parent]
    rcases up with rfl | up
    · exact ⟨u, mem_cons_self, parent⟩
    · obtain ⟨w, mem, child⟩ := ih up
      exact ⟨w, mem_cons_of_mem _ mem, child⟩

theorem Tree.root_alone (leaf : s.Leaf t) (root : (s.trans t).parent = none) (alive : s.alive t = true)
    (there : s.alive u = true) : u = t := by
  refine tree.induct (P := fun u => u = t) ?_ ?_ u there
  · intro u there parent
    exact some.inj ((tree.root u there parent).symm.trans (tree.root t alive root))
  · intro u p there parent is
    subst is
    exact absurd parent (leaf u (tree.bound u there) there)

theorem Tree.same (parent : ∀ t, (s'.trans t).parent = (s.trans t).parent) (alive : s'.alive = s.alive)
    (transaction : s'.transaction = s.transaction) (next : s'.nextTransaction = s.nextTransaction) : s'.Tree := by
  refine ⟨?_, ?_, ?_⟩
  · rw [alive]
    exact fun t p there parent' => tree.older t p there ((parent t).symm.trans parent')
  · rw [alive, next]
    exact tree.bound
  · rw [alive, transaction]
    exact fun t there parent' => tree.root t there ((parent t).symm.trans parent')

end

theorem lineage_same (parent : ∀ t, (s'.trans t).parent = (s.trans t).parent) : s'.lineage t = s.lineage t := by
  have each (n t : Nat) : s'.lineageFrom n t = s.lineageFrom n t := by
    induction n generalizing t with
    | zero => rfl
    | succ n ih =>
      rw [lineageFrom, lineageFrom, parent]
      cases (s.trans t).parent with
      | none => rfl
      | some p => exact congrArg _ (ih p)
  exact each t t

theorem above_same (parent : ∀ t, (s'.trans t).parent = (s.trans t).parent) : s'.above t = s.above t := by
  unfold above
  rw [parent]
  cases (s.trans t).parent with
  | none => rfl
  | some p => exact lineage_same parent

theorem Tree.lineage_kept (tree : s.Tree) (tree' : s'.Tree)
    (parent : ∀ t, s.alive t = true → (s'.trans t).parent = (s.trans t).parent)
    (alive : s.alive t = true) (alive' : s'.alive t = true) : s'.lineage t = s.lineage t := by
  induction t using Nat.strong_induction_on with
  | _ t ih =>
    have same := parent t alive
    cases root : (s.trans t).parent with
    | none => rw [lineage_root root, lineage_root (same.trans root)]
    | some p =>
      obtain ⟨older, there⟩ := tree.older t p alive root
      have there' := (tree'.older t p alive' (same.trans root)).2
      rw [tree.lineage_sub alive root, tree'.lineage_sub alive' (same.trans root), ih p older there there']

theorem Tree.above_kept (tree : s.Tree) (tree' : s'.Tree)
    (parent : ∀ t, s.alive t = true → (s'.trans t).parent = (s.trans t).parent)
    (alive : s.alive t = true) (alive' : s'.alive t = true) : s'.above t = s.above t := by
  have same := tree.lineage_kept tree' parent alive alive'
  rw [tree.lineage_cons alive, tree'.lineage_cons alive'] at same
  exact (cons.inj same).2

/-! The three that change the tree -/

theorem Tree.makeTop (tree : s.Tree) (idle : s.transaction = none) : s.makeTop.Tree := by
  have none (t : Nat) : s.alive t = false := by
    by_contra alive
    refine tree.induct (P := fun _ => False) ?_ (fun _ _ _ _ ih => ih) t (by simpa using alive)
    intro t alive parent
    rw [tree.root t alive parent] at idle
    exact some_ne_none t idle
  refine ⟨?_, ?_, ?_⟩
  · intro t p alive parent
    by_cases is : t = s.nextTransaction
    · subst is
      simp [Config.makeTop, made] at parent
    · simp [Config.makeTop, is, none] at alive
  · intro t alive
    by_cases is : t = s.nextTransaction
    · subst is
      exact Nat.lt_succ_self _
    · simp [Config.makeTop, is, none] at alive
  · intro t alive parent
    by_cases is : t = s.nextTransaction
    · subst is
      rfl
    · simp [Config.makeTop, is, none] at alive

theorem Tree.makeSub (tree : s.Tree) (from' : s.alive p = true) {conflict : Option Nat} :
    (s.makeSub p conflict).Tree := by
  refine ⟨?_, ?_, ?_⟩
  · intro t q alive parent
    have keeps (older : q < s.nextTransaction) (there : s.alive q = true) : (s.makeSub p conflict).alive q = true := by
      simp [Config.makeSub, ne_of_lt older, there]
    by_cases is : t = s.nextTransaction
    · subst is
      simp only [Config.makeSub, update_self, made, some.injEq] at parent
      subst parent
      have older := tree.bound _ from'
      exact ⟨older, keeps older from'⟩
    · simp only [Config.makeSub, update_of_ne is] at alive parent
      obtain ⟨older, there⟩ := tree.older t q alive parent
      exact ⟨older, keeps (tree.bound q there) there⟩
  · intro t alive
    by_cases is : t = s.nextTransaction
    · subst is
      exact Nat.lt_succ_self _
    · simp only [Config.makeSub, update_of_ne is] at alive
      exact Nat.lt_succ_of_lt (tree.bound t alive)
  · intro t alive parent
    by_cases is : t = s.nextTransaction
    · subst is
      simp [Config.makeSub, made] at parent
    · simp only [Config.makeSub, update_of_ne is] at alive parent
      exact tree.root t alive parent

theorem Tree.delete (tree : s.Tree) (leaf : s.Leaf t) (alive : s.alive t = true) : (s.delete t).Tree := by
  have other {u : Nat} (there : (s.delete t).alive u = true) : u ≠ t ∧ s.alive u = true := by
    by_cases is : u = t
    · subst is
      simp [Config.delete] at there
    · simpa [Config.delete, is] using there
  refine ⟨?_, ?_, ?_⟩
  · intro u p there parent
    obtain ⟨-, there⟩ := other there
    obtain ⟨older, alive'⟩ := tree.older u p there parent
    have stays : p ≠ t := fun is => leaf u (tree.bound u there) there (is ▸ parent)
    exact ⟨older, by simpa [Config.delete, stays] using alive'⟩
  · intro u there
    exact tree.bound u (other there).2
  · intro u there parent
    obtain ⟨differs, there⟩ := other there
    have root := tree.root u there parent
    have notRoot : (s.trans t).parent ≠ none := by
      intro none
      exact differs (some.inj (root.symm.trans (tree.root t alive none)))
    change (if (s.trans t).parent = none then none else s.transaction) = some u
    rw [if_neg notRoot, root]

end Ecos.Cdl.Config
