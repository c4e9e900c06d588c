import Ecos.Cdl.TransactMemory

namespace Ecos.Cdl.Config
open Function Option Transaction List
variable {N S : Type*} {s s' : Config N S} {t u p c d a : Nat} {v n : N} {k : Bool}

/-- Every conflict that is left lies where its owner says, and all that is pointed to is left. -/
structure Kept (s : Config N S) : Prop where
  top : ∀ k, ∀ c ∈ s.conflicts k, s.live c = true
  new : ∀ t k, s.alive t = true → ∀ c ∈ (s.trans t).newConflicts k, s.live c = true
  deleted : ∀ t k, s.alive t = true → ∀ c ∈ (s.trans t).deletedConflicts k, s.live c = true
  resolved : ∀ t, s.alive t = true → ∀ c ∈ (s.trans t).resolvedConflicts, s.live c = true ∧
    ((s.conf c).transaction = some t ∧ (∀ k, c ∉ (s.trans t).newConflicts k) ∨ c ∈ (s.trans t).deletedConflicts false)
  resolvedNodup : ∀ t, s.alive t = true → (s.trans t).resolvedConflicts.Nodup
  solved : ∀ t, s.alive t = true → s.stale t = false → ∀ c ∈ (s.trans t).resolvedConflicts,
    (s.conf c).transaction = some t ∨ (s.conf c).transaction = none ∨ (s.trans t).conflict = some c
  placed : ∀ c, s.live c = true → ((s.conf c).transaction = none → ∃ k, c ∈ s.conflicts k) ∧
    ∀ t, (s.conf c).transaction = some t →
      s.alive t = true ∧ ((∃ k, c ∈ (s.trans t).newConflicts k) ∨ c ∈ (s.trans t).resolvedConflicts)
  globals : ∀ t, s.alive t = true → ∀ c ∈ (s.trans t).globalConflictsWithSolutions, s.live c = true ∧
    (s.conf c).transaction = none ∧ (s.conf c).structural = false ∧ (s.trans t).parent = none ∧
    ∀ k, c ∉ (s.trans t).deletedConflicts k
  globalsNodup : ∀ t, s.alive t = true → (s.trans t).globalConflictsWithSolutions.Nodup
  target : ∀ t, s.alive t = true → s.stale t = false → ∀ c, (s.trans t).conflict = some c → s.live c = true ∧
    ∃ p, (s.trans t).parent = some p ∧ ((s.conf c).transaction = none ∨ (s.conf c).transaction = some p ∨
      (s.trans p).conflict = some c)
  staleLeaf : ∀ t, s.alive t = true → s.stale t = true → s.Leaf t
  bounded : ∀ c, s.live c = true → c < s.nextConflict
  fault : s.fault = false

theorem Kept.start (start : s.Start) : s.Kept := by
  have none (t : Nat) (there : s.alive t = true) : False := by simp [start.alive t] at there
  refine ⟨fun k c mem => ((start.conflicts k c).mp mem).1, fun t _ there => (none t there).elim,
    fun t _ there => (none t there).elim, fun t there => (none t there).elim, fun t there => (none t there).elim,
    fun t there => (none t there).elim, ?_, fun t there => (none t there).elim, fun t there => (none t there).elim,
    fun t there => (none t there).elim, fun t there => (none t there).elim, fun c live => (start.live c live).2, start.fault⟩
  intro c live
  refine ⟨fun _ => ⟨_, (start.conflicts _ c).mpr ⟨live, rfl⟩⟩, fun t owner => ?_⟩
  rw [(start.live c live).1] at owner
  exact absurd owner (by simp)

theorem Kept.point (kept : s.Kept) (within : Within (fun _ => True) s s')
    (new : ∀ t, (s'.trans t).newConflicts = (s.trans t).newConflicts)
    (resolved : ∀ t, (s'.trans t).resolvedConflicts = (s.trans t).resolvedConflicts)
    (owner : ∀ c, (s'.conf c).transaction = (s.conf c).transaction) (stale : s'.stale = s.stale)
    (live : s'.live = s.live) (fault : s'.fault = s.fault)
    (kept_deleted : ∀ t k, ∀ c ∈ (s.trans t).deletedConflicts k, c ∈ (s'.trans t).deletedConflicts k)
    (deleted : ∀ t k, s.alive t = true → ∀ c ∈ (s'.trans t).deletedConflicts k, s.live c = true)
    (globals : ∀ t, s.alive t = true → ∀ c ∈ (s'.trans t).globalConflictsWithSolutions, s.live c = true ∧
      (s.conf c).transaction = none ∧ (s.conf c).structural = false ∧ (s.trans t).parent = none ∧
      ∀ k, c ∉ (s'.trans t).deletedConflicts k)
    (globalsNodup : ∀ t, s.alive t = true → (s'.trans t).globalConflictsWithSolutions.Nodup) : s'.Kept := by
  constructor
  · rw [within.conflicts, live]
    exact kept.top
  · simp only [within.alive, new, live]
    exact kept.new
  · simp only [within.alive, live]
    exact deleted
  · simp only [within.alive, resolved, live, owner, new]
    intro t there c mem
    obtain ⟨was, own | passed⟩ := kept.resolved t there c mem
    · exact ⟨was, .inl own⟩
    · exact ⟨was, .inr (kept_deleted t false c passed)⟩
  · simp only [within.alive, resolved]
    exact kept.resolvedNodup
  · simp only [within.alive, stale, resolved, owner, within.conflict]
    exact kept.solved
  · simp only [live, owner, within.conflicts, within.alive, new, resolved]
    exact kept.placed
  · simp only [within.alive, live, owner, within.parent]
    intro t there c mem
    obtain ⟨was, free, plain, rest⟩ := globals t there c mem
    exact ⟨was, free, (within.structural c (kept.bounded c was)).trans plain, rest⟩
  · simp only [within.alive]
    exact globalsNodup
  · simp only [within.alive, stale, within.conflict, live, within.parent, owner]
    exact kept.target
  · simp only [within.alive, stale]
    exact fun t there old => within.leaf (kept.staleLeaf t there old)
  · rw [live]
    exact fun c was => lt_of_lt_of_le (kept.bounded c was) within.nextConflict
  · rw [fault]
    exact kept.fault

theorem Kept.same (kept : s.Kept) (files : SameFiles s s') (within : Within (fun _ => True) s s') (live : s'.live = s.live)
    (globals : ∀ t, (s'.trans t).globalConflictsWithSolutions.Sublist (s.trans t).globalConflictsWithSolutions)
    (fault : s'.fault = s.fault) : s'.Kept := by
  refine kept.point within files.new files.resolved files.owner files.stale live fault ?_ ?_ ?_ ?_
  · intro t k c mem
    rwa [files.deleted]
  · intro t k there c mem
    rw [files.deleted] at mem
    exact kept.deleted t k there c mem
  · intro t there c mem
    rw [files.deleted]
    exact kept.globals t there c ((globals t).subset mem)
  · exact fun t there => (globals t).nodup (kept.globalsNodup t there)

theorem Kept.fresh_above (kept : s.Kept) (tree : s.Tree) (there : s.alive t = true) (fresh : s.stale t = false) :
    ∀ a ∈ s.lineage t, s.alive a = true ∧ s.stale a = false := by
  intro a up
  obtain ⟨alive, -⟩ := tree.lineage_alive there a up
  refine ⟨alive, ?_⟩
  by_cases same : a = t
  · exact same ▸ fresh
  · by_contra stale
    have leaf := kept.staleLeaf a alive (by simpa using stale)
    exact tree.leaf_lineage leaf there (Ne.symm same) up

theorem Kept.target_above (kept : s.Kept) (tree : s.Tree) (there : s.alive t = true) (fresh : s.stale t = false)
    (made : (s.trans t).conflict = some c) :
    (s.conf c).transaction = none ∨ ∃ a ∈ s.above t, (s.conf c).transaction = some a := by
  revert fresh made
  refine tree.induct (P := fun t => s.stale t = false → (s.trans t).conflict = some c →
    (s.conf c).transaction = none ∨ ∃ a ∈ s.above t, (s.conf c).transaction = some a) ?_ ?_ t there
  · intro t there root fresh made
    obtain ⟨-, p, parent, -⟩ := kept.target t there fresh c made
    rw [root] at parent
    cases parent
  · intro t p there parent ih fresh made
    obtain ⟨-, q, parent', owner⟩ := kept.target t there fresh c made
    rw [parent] at parent'
    cases parent'
    have up : s.above t = s.lineage p := above_sub parent
    have alive := (tree.older t p there parent).2
    have self : s.lineage p = p :: s.above p := tree.lineage_cons alive
    have older : p ∈ s.lineage t := by
      rw [tree.lineage_sub there parent, self]
      simp
    rcases owner with none | own | inherited
    · exact .inl none
    · exact .inr ⟨p, by rw [up, self]; exact mem_cons_self, own⟩
    · rcases ih (kept.fresh_above tree there fresh p older).2 inherited with none | ⟨a, above, own⟩
      · exact .inl none
      · exact .inr ⟨a, by rw [up, self]; exact mem_cons_of_mem _ above, own⟩

/-- Some of what belongs to an innermost transaction is destroyed. -/
theorem Kept.drop (kept : s.Kept) (filed : s.Filed) (leaf : s.Leaf t) (within : Within (· = t) s s')
    (stale : s'.stale = s.stale) (next : s'.nextConflict = s.nextConflict)
    (owner : ∀ c, (s'.conf c).transaction = (s.conf c).transaction)
    (structural : ∀ c, (s'.conf c).structural = (s.conf c).structural)
    (fewer : ∀ d, s'.live d = true → s.live d = true)
    (lost : ∀ d, s.live d = true → s'.live d = false → (s.conf d).transaction = some t)
    (new : ∀ k, ((s'.trans t).newConflicts k).Sublist ((s.trans t).newConflicts k))
    (resolved : (s'.trans t).resolvedConflicts.Sublist (s.trans t).resolvedConflicts)
    (deleted : (s'.trans t).deletedConflicts = (s.trans t).deletedConflicts ∨
      (∀ k, (s'.trans t).deletedConflicts k = []) ∧ (s'.trans t).resolvedConflicts = [])
    (globals : (s'.trans t).globalConflictsWithSolutions.Sublist (s.trans t).globalConflictsWithSolutions)
    (listed : s.alive t = true → ∀ d, (∃ k, d ∈ (s'.trans t).newConflicts k) ∨ d ∈ (s'.trans t).resolvedConflicts →
      s'.live d = true)
    (unlisted : ∀ d, s'.live d = true → (s.conf d).transaction = some t →
      (∃ k, d ∈ (s'.trans t).newConflicts k) ∨ d ∈ (s'.trans t).resolvedConflicts)
    (fault : s'.fault = s.fault) : s'.Kept := by
  have other (u : Nat) (other : u ≠ t) : s'.trans u = s.trans u := within.others u other
  have stays (d : Nat) (live : s.live d = true) (owned : (s.conf d).transaction ≠ some t) : s'.live d = true := by
    by_contra dead
    exact owned (lost d live (by simpa using dead))
  have upward (u : Nat) (there : s.alive u = true) (d : Nat) (live : s.live d = true)
      (owned : (s.conf d).transaction = none ∨ ∃ a ∈ s.above u, (s.conf d).transaction = some a) : s'.live d = true := by
    refine stays d live fun own => ?_
    rcases owned with none | ⟨a, above, own'⟩
    · rw [own] at none
      cases none
    · rw [own] at own'
      cases own'
      exact filed.leaf_above leaf there above
  have deletedSub (u k d : _) (mem : d ∈ (s'.trans u).deletedConflicts k) : d ∈ (s.trans u).deletedConflicts k := by
    by_cases same : u = t
    · subst same
      rcases deleted with same | ⟨gone, -⟩
      · rwa [same] at mem
      · rw [gone] at mem
        exact absurd mem not_mem_nil
    · rwa [other u same] at mem
  have deletedLive (u : Nat) (k : Bool) (there : s.alive u = true) (d : Nat)
      (mem : d ∈ (s.trans u).deletedConflicts k) : s'.live d = true :=
    upward u there d (kept.deleted u k there d mem) (filed.deleted u k there d mem).2.2
  constructor
  · intro k c mem
    rw [within.conflicts] at mem
    exact stays c (kept.top k c mem) (by rw [(filed.top k c mem).1]; simp)
  · intro u k there c mem
    rw [within.alive] at there
    by_cases same : u = t
    · subst same
      exact listed there c (.inl ⟨k, mem⟩)
    · rw [other u same] at mem
      exact stays c (kept.new u k there c mem) (by rw [(filed.new u k there c mem).1]; simpa using same)
  · intro u k there c mem
    rw [within.alive] at there
    exact deletedLive u k there c (deletedSub u k c mem)
  · intro u there c mem
    rw [within.alive] at there
    rw [owner]
    by_cases same : u = t
    · subst same
      refine ⟨listed there c (.inr mem), ?_⟩
      obtain ⟨-, own | passed⟩ := kept.resolved u there c (resolved.subset mem)
      · exact .inl ⟨own.1, fun k made => own.2 k ((new k).subset made)⟩
      · rcases deleted with same | ⟨-, none⟩
        · exact .inr (same ▸ passed)
        · rw [none] at mem
          exact absurd mem not_mem_nil
    · rw [other u same] at mem ⊢
      obtain ⟨live, own | passed⟩ := kept.resolved u there c mem
      · exact ⟨stays c live (by rw [own.1]; simpa using same), .inl own⟩
      · exact ⟨deletedLive u false there c passed, .inr passed⟩
  · intro u there
    rw [within.alive] at there
    by_cases same : u = t
    · subst same
      exact resolved.nodup (kept.resolvedNodup u there)
    · rw [other u same]
      exact kept.resolvedNodup u there
  · intro u there fresh c mem
    rw [within.alive] at there
    rw [stale] at fresh
    rw [owner, within.conflict]
    refine kept.solved u there fresh c ?_
    by_cases same : u = t
    · subst same
      exact resolved.subset mem
    · rwa [other u same] at mem
  · intro c live
    obtain ⟨free, owned⟩ := kept.placed c (fewer c live)
    rw [within.conflicts, within.alive, owner]
    refine ⟨free, fun u own => ⟨(owned u own).1, ?_⟩⟩
    by_cases same : u = t
    · subst same
      exact unlisted c live own
    · rw [other u same]
      exact (owned u own).2
  · intro u there c mem
    rw [within.alive] at there
    have old : c ∈ (s.trans u).globalConflictsWithSolutions := by
      by_cases same : u = t
      · subst same
        exact globals.subset mem
      · rwa [other u same] at mem
    obtain ⟨live, free, plain, root, apart⟩ := kept.globals u there c old
    rw [owner, structural, within.parent]
    exact ⟨stays c live (by rw [free]; simp), free, plain, root, fun k gone => apart k (deletedSub u k c gone)⟩
  · intro u there
    rw [within.alive] at there
    by_cases same : u = t
    · subst same
      exact globals.nodup (kept.globalsNodup u there)
    · rw [other u same]
      exact kept.globalsNodup u there
  · intro u there fresh c made
    rw [within.alive] at there
    rw [stale] at fresh
    rw [within.conflict] at made
    obtain ⟨live, p, parent, from'⟩ := kept.target u there fresh c made
    rw [owner, within.parent]
    exact ⟨upward u there c live (kept.target_above filed.toTree there fresh made), p, parent,
      by rwa [within.conflict]⟩
  · intro u there old
    rw [within.alive] at there
    rw [stale] at old
    exact within.leaf (kept.staleLeaf u there old)
  · intro c live
    rw [next]
    exact kept.bounded c (fewer c live)
  · rw [fault]
    exact kept.fault

/-! Conflicts are made and cleared -/

theorem Kept.clearOwn (kept : s.Kept) (filed : s.Filed) (innermost : s.Innermost t)
    (made : c ∈ (s.trans t).newConflicts k) :
    (((s.touch c).modify t (·.eraseNew k c)).destroy c).Kept := by
  obtain ⟨alive, -, leaf⟩ := innermost
  let s' := ((s.touch c).modify t (·.eraseNew k c)).destroy c
  have within : Within (· = t) s s' := by
    refine Within.trans (Within.trans (within_touch (c := c)) ?_) within_destroy
    exact within_modify rfl fun _ => ⟨rfl, rfl⟩
  have self : s'.trans t = (s.trans t).eraseNew k c := modify_self
  have owner := (filed.new t k alive c made).1
  have live : s.live c = true := kept.new t k alive c made
  have left (d : Nat) : s'.live d = (s.live d && !(decide (d = c) && true)) := destroy_live
  have new (j : Bool) : (s'.trans t).newConflicts j =
      if j = k then ((s.trans t).newConflicts k).erase c else (s.trans t).newConflicts j := by
    rw [self, eraseNew]
    by_cases kind : j = k
    · subst kind
      simp
    · simp [kind]
  have gone (j : Bool) : c ∉ (s'.trans t).newConflicts j := by
    rw [new]
    split
    · exact (filed.newNodup t k alive).not_mem_erase
    · rename_i other
      intro also
      exact other ((filed.new t j alive c also).2.1.symm.trans (filed.new t k alive c made).2.1)
  have unsolved : c ∉ (s.trans t).resolvedConflicts := by
    intro solved
    obtain ⟨-, own | passed⟩ := kept.resolved t alive c solved
    · exact own.2 k made
    · rcases (filed.deleted t false alive c passed).2.2 with none | ⟨a, above, own⟩
      · rw [owner] at none
        cases none
      · rw [owner] at own
        cases own
        exact filed.leaf_above leaf alive above
  have fewer (j : Bool) : ((s'.trans t).newConflicts j).Sublist ((s.trans t).newConflicts j) := by
    rw [new]
    split
    · rename_i same
      exact same ▸ erase_sublist
    · exact .refl _
  refine kept.drop filed leaf within rfl rfl (fun _ => rfl) (fun _ => rfl) ?_ ?_ fewer (self ▸ .refl _)
    (.inl (self ▸ rfl)) (self ▸ .refl _) ?_ ?_ ?_
  · intro d there
    rw [left, Bool.and_eq_true] at there
    exact there.1
  · intro d was lost
    rw [left, was] at lost
    have same : d = c := by simpa using lost
    exact same ▸ owner
  · intro _ d listed
    have other : d ≠ c := by
      rintro rfl
      rcases listed with ⟨j, now⟩ | solved
      · exact gone j now
      · exact unsolved (by rwa [self] at solved)
    have was : s.live d = true := by
      rcases listed with ⟨j, now⟩ | solved
      · exact kept.new t j alive d ((fewer j).subset now)
      · exact (kept.resolved t alive d (by rwa [self] at solved)).1
    rw [left, was]
    simp [other]
  · intro d there own
    rw [left, Bool.and_eq_true] at there
    have other : d ≠ c := by simpa using there.2
    rcases ((kept.placed d there.1).2 t own).2 with ⟨j, was⟩ | solved
    · refine .inl ⟨j, ?_⟩
      rw [new]
      split
      · rename_i same
        exact (mem_erase_of_ne other).mpr (same ▸ was)
      · exact was
    · refine .inr ?_
      rwa [self]
  · change ((s.fault || !s.live c) || !s.live c) = s.fault
    simp [live]

theorem Kept.clearOther (kept : s.Kept) (live : s.live c = true)
    (apart : c ∉ (s.trans t).globalConflictsWithSolutions) :
    ((s.touch c).modify t (·.pushDeleted (s.conf c).structural c)).Kept := by
  let s' := (s.touch c).modify t (·.pushDeleted (s.conf c).structural c)
  have self : s'.trans t = (s.trans t).pushDeleted (s.conf c).structural c := modify_self
  have rest (u : Nat) (same : u ≠ t) : s'.trans u = s.trans u := modify_other same
  have within : Within (fun _ => True) s s' := by
    refine Within.trans (within_touch (c := c)) ?_
    exact within_modify trivial fun _ => ⟨rfl, rfl⟩
  have lists (u : Nat) : (s'.trans u).newConflicts = (s.trans u).newConflicts ∧
      (s'.trans u).resolvedConflicts = (s.trans u).resolvedConflicts ∧
      (s'.trans u).globalConflictsWithSolutions = (s.trans u).globalConflictsWithSolutions := by
    by_cases same : u = t
    · subst same
      rw [self]
      exact ⟨rfl, rfl, rfl⟩
    · rw [rest u same]
      exact ⟨rfl, rfl, rfl⟩
  have deleted (u : Nat) (j : Bool) (d : Nat) : d ∈ (s'.trans u).deletedConflicts j ↔
      d ∈ (s.trans u).deletedConflicts j ∨ u = t ∧ j = (s.conf c).structural ∧ d = c := by
    by_cases same : u = t
    · subst same
      rw [self, pushDeleted]
      by_cases kind : j = (s.conf c).structural
      · subst kind
        simp
      · simp [kind]
    · rw [rest u same]
      simp [same]
  refine kept.point within (fun u => (lists u).1) (fun u => (lists u).2.1) (fun _ => rfl) rfl rfl ?_
    (fun u j d mem => (deleted u j d).mpr (.inl mem)) ?_ ?_ ?_
  · change (s.fault || !s.live c) = s.fault
    rw [live]
    simp
  · intro u j there d mem
    rcases (deleted u j d).mp mem with was | ⟨-, -, rfl⟩
    · exact kept.deleted u j there d was
    · exact live
  · intro u there d mem
    rw [(lists u).2.2] at mem
    obtain ⟨was, free, plain, root, clear⟩ := kept.globals u there d mem
    refine ⟨was, free, plain, root, fun j gone => ?_⟩
    rcases (deleted u j d).mp gone with gone | ⟨rfl, -, rfl⟩
    · exact clear j gone
    · exact apart mem
  · intro u there
    rw [(lists u).2.2]
    exact kept.globalsNodup u there

theorem Kept.clearConflict (kept : s.Kept) (filed : s.Filed) (innermost : s.Innermost t)
    (mem : c ∈ s.listed t (s.conf c).structural) (apart : c ∉ (s.trans t).globalConflictsWithSolutions) :
    (s.clearConflict t c).Kept := by
  obtain ⟨-, -, place⟩ := filed.listed_owner innermost.1 mem
  have live : s.live c = true := by
    rcases place with ⟨-, top⟩ | ⟨a, up, -, new⟩
    · exact kept.top _ c top
    · exact kept.new a _ (filed.lineage_alive innermost.1 a up).1 c new
  by_cases own : (s.conf c).transaction = some t
  · have step : s.clearConflict t c = ((s.touch c).modify t (·.eraseNew (s.conf c).structural c)).destroy c := if_pos own
    rw [step]
    rcases place with ⟨none, -⟩ | ⟨a, -, owner, new⟩
    · rw [own] at none
      cases none
    · rw [own] at owner
      cases owner
      exact kept.clearOwn filed innermost new
  · have step : s.clearConflict t c = (s.touch c).modify t (·.pushDeleted (s.conf c).structural c) := if_neg own
    rw [step]
    exact kept.clearOther live apart

theorem Kept.newConflict {node : N} {property : Nat} (kept : s.Kept) (innermost : s.Innermost t) :
    (s.newConflict t node property k).Kept := by
  let s' := s.newConflict t node property k
  have within : Within (· = t) s s' := within_newConflict
  have self : s'.trans t = (s.trans t).pushNew k s.nextConflict := modify_self
  have rest (u : Nat) (same : u ≠ t) : s'.trans u = s.trans u := modify_other same
  have older (d : Nat) (was : s.live d = true) : s'.live d = true ∧ s'.conf d = s.conf d := by
    have other : d ≠ s.nextConflict := ne_of_lt (kept.bounded d was)
    refine ⟨?_, ?_⟩
    · change update s.live s.nextConflict true d = true
      rwa [update_of_ne other]
    · exact update_of_ne other _ _
  have first : s'.live s.nextConflict = true ∧ (s'.conf s.nextConflict).transaction = some t := by
    refine ⟨?_, ?_⟩
    · exact update_self s.nextConflict true s.live
    · change (update s.conf s.nextConflict _ s.nextConflict).transaction = some t
      rw [update_self]
  have lists (u : Nat) : (s'.trans u).deletedConflicts = (s.trans u).deletedConflicts ∧
      (s'.trans u).resolvedConflicts = (s.trans u).resolvedConflicts ∧
      (s'.trans u).globalConflictsWithSolutions = (s.trans u).globalConflictsWithSolutions := by
    by_cases same : u = t
    · subst same
      rw [self]
      exact ⟨rfl, rfl, rfl⟩
    · rw [rest u same]
      exact ⟨rfl, rfl, rfl⟩
  have new (u : Nat) (j : Bool) (d : Nat) : d ∈ (s'.trans u).newConflicts j ↔
      d ∈ (s.trans u).newConflicts j ∨ u = t ∧ j = k ∧ d = s.nextConflict := by
    by_cases same : u = t
    · subst same
      rw [self, pushNew]
      by_cases kind : j = k
      · subst kind
        simp
      · simp [kind]
    · rw [rest u same]
      simp [same]
  constructor
  · exact fun j d mem => (older d (kept.top j d mem)).1
  · intro u j there d mem
    rcases (new u j d).mp mem with was | ⟨rfl, rfl, rfl⟩
    · exact (older d (kept.new u j there d was)).1
    · exact first.1
  · intro u j there d mem
    rw [(lists u).1] at mem
    exact (older d (kept.deleted u j there d mem)).1
  · intro u there d mem
    rw [(lists u).2.1] at mem
    obtain ⟨was, own | passed⟩ := kept.resolved u there d mem
    · refine ⟨(older d was).1, .inl ⟨by rw [(older d was).2]; exact own.1, fun j made => ?_⟩⟩
      rcases (new u j d).mp made with made | ⟨-, -, rfl⟩
      · exact own.2 j made
      · exact absurd (kept.bounded _ was) (lt_irrefl _)
    · exact ⟨(older d was).1, .inr (by rwa [(lists u).1])⟩
  · intro u there
    rw [(lists u).2.1]
    exact kept.resolvedNodup u there
  · intro u there fresh d mem
    rw [(lists u).2.1] at mem
    rw [(older d (kept.resolved u there d mem).1).2, within.conflict]
    exact kept.solved u there fresh d mem
  · intro d live
    by_cases same : d = s.nextConflict
    · subst same
      rw [first.2]
      refine ⟨fun none => (some_ne_none t none).elim, fun u own => ?_⟩
      cases own
      exact ⟨innermost.1, .inl ⟨k, (new t k _).mpr (.inr ⟨rfl, rfl, rfl⟩)⟩⟩
    · have was : s.live d = true := by
        have live : update s.live s.nextConflict true d = true := live
        rwa [update_of_ne same] at live
      rw [(older d was).2]
      refine ⟨(kept.placed d was).1, fun u own => ?_⟩
      obtain ⟨there, place⟩ := (kept.placed d was).2 u own
      rw [(lists u).2.1]
      exact ⟨there, place.imp_left (Exists.imp fun j made => (new u j d).mpr (.inl made))⟩
  · intro u there d mem
    rw [(lists u).2.2] at mem
    rw [(lists u).1, within.parent]
    obtain ⟨was, rest⟩ := kept.globals u there d mem
    rw [(older d was).2]
    exact ⟨(older d was).1, rest⟩
  · intro u there
    rw [(lists u).2.2]
    exact kept.globalsNodup u there
  · intro u there fresh d made
    rw [within.conflict] at made
    obtain ⟨was, p, parent, from'⟩ := kept.target u there fresh d made
    rw [(older d was).2]
    exact ⟨(older d was).1, p, by rwa [within.parent], by rwa [within.conflict]⟩
  · exact fun u there old => within.leaf (kept.staleLeaf u there old)
  · intro d live
    change d < s.nextConflict + 1
    by_cases same : d = s.nextConflict
    · omega
    · have live : update s.live s.nextConflict true d = true := live
      rw [update_of_ne same] at live
      exact (kept.bounded d live).trans (Nat.lt_succ_self _)
  · exact kept.fault

/-! Transactions come and go -/

theorem Kept.cancel (kept : s.Kept) (filed : s.Filed) (alive : s.alive t = true) (leaf : s.Leaf t) :
    (s.cancel t).Kept := by
  obtain ⟨live, safe⟩ := cancel_memory (fun k => filed.newNodup t k alive) (kept.resolvedNodup t alive)
  obtain ⟨self, owner, structural, stale, next⟩ := cancel_spec (s := s) (t := t)
  have dropped (d : Nat) : (s.cancel t).live d = true ↔ s.live d = true ∧ (∀ k, d ∉ (s.trans t).newConflicts k) ∧
      ¬ (d ∈ (s.trans t).resolvedConflicts ∧ (s.conf d).transaction = some t) := by
    rw [live, Bool.and_eq_true]
    refine and_congr_right fun _ => ?_
    simp [Bool.forall_bool, and_assoc, imp_iff_not_or]
  refine kept.drop filed leaf within_cancel stale next owner structural ?_ ?_ ?_ ?_ ?_ ?_ ?_ ?_ ?_
  · exact fun d there => ((dropped d).mp there).1
  · intro d was lost
    have out : ¬ (s.cancel t).live d = true := by simp [lost]
    rw [dropped] at out
    by_contra other
    refine out ⟨was, fun k made => other (filed.new t k alive d made).1, fun both => other both.2⟩
  · intro k
    rw [self]
    exact nil_sublist _
  · rw [self]
    exact nil_sublist _
  · rw [self]
    exact .inr ⟨fun _ => rfl, rfl⟩
  · rw [self]
    exact nil_sublist _
  · intro _ d listed
    rw [self] at listed
    rcases listed with ⟨k, made⟩ | solved
    · exact absurd made not_mem_nil
    · exact absurd solved not_mem_nil
  · intro d there own
    obtain ⟨was, notNew, notOwn⟩ := (dropped d).mp there
    rcases ((kept.placed d was).2 t own).2 with ⟨k, made⟩ | solved
    · exact absurd made (notNew k)
    · exact absurd ⟨solved, own⟩ notOwn
  · refine safe ?_ (fun c solved => (kept.resolved t alive c solved).1) fun c mem => ?_
    · intro k c made
      obtain ⟨own, kind, -⟩ := filed.new t k alive c made
      refine ⟨kept.new t k alive c made, fun also => ?_, fun solved => ?_, fun known => ?_⟩
      · exact absurd (kind.symm.trans (filed.new t (!k) alive c also).2.1) (by cases k <;> simp)
      · obtain ⟨-, is | passed⟩ := kept.resolved t alive c solved
        · exact is.2 k made
        · rcases (filed.deleted t false alive c passed).2.2 with none | ⟨a, above, is⟩
          · rw [own] at none
            cases none
          · rw [own] at is
            cases is
            exact filed.leaf_above leaf alive above
      · have free := (kept.globals t alive c known).2.1
        rw [own] at free
        cases free
    · obtain ⟨was, free, -⟩ := kept.globals t alive c mem
      exact ⟨was, by rw [free]; simp⟩

theorem Kept.delete (kept : s.Kept) (new : ∀ k, (s.trans t).newConflicts k = [])
    (resolved : (s.trans t).resolvedConflicts = []) : (s.delete t).Kept := by
  have older (u : Nat) (there : (s.delete t).alive u = true) : s.alive u = true ∧ u ≠ t := by
    by_cases same : u = t
    · subst same
      simp [Config.delete] at there
    · simp only [Config.delete, update_of_ne same] at there
      exact ⟨there, same⟩
  refine ⟨kept.top, fun u k there => kept.new u k (older u there).1, fun u k there => kept.deleted u k (older u there).1,
    fun u there => kept.resolved u (older u there).1, fun u there => kept.resolvedNodup u (older u there).1,
    fun u there => kept.solved u (older u there).1, ?_, fun u there => kept.globals u (older u there).1,
    fun u there => kept.globalsNodup u (older u there).1, fun u there => kept.target u (older u there).1, ?_,
    kept.bounded, kept.fault⟩
  · intro c live
    refine ⟨(kept.placed c live).1, fun u own => ?_⟩
    obtain ⟨there, place⟩ := (kept.placed c live).2 u own
    have other : u ≠ t := by
      rintro rfl
      rcases place with ⟨k, made⟩ | solved
      · rw [new] at made
        exact absurd made not_mem_nil
      · rw [resolved] at solved
        exact absurd solved not_mem_nil
    refine ⟨?_, place⟩
    simp only [Config.delete, update_of_ne other]
    exact there
  · intro u there old w bound alive
    exact kept.staleLeaf u (older u there).1 old w bound (older w alive).1

/-- A new transaction owns nothing, and may have been made for a conflict of its parent. -/
theorem Kept.made (kept : s.Kept) (tree : s.Tree) {transaction parent conflict : Option Nat}
    (fresh : ∀ p, parent = some p → s.stale p = false)
    (target : ∀ c, conflict = some c → s.live c = true ∧ ∃ p, parent = some p ∧ s.alive p = true ∧
      ((s.conf c).transaction = none ∨ (s.conf c).transaction = some p ∨ (s.trans p).conflict = some c)) :
    ({ s with
      transaction := transaction
      trans := update s.trans s.nextTransaction (.made parent conflict)
      alive := update s.alive s.nextTransaction true
      stale := update s.stale s.nextTransaction false
      nextTransaction := s.nextTransaction + 1 } : Config N S).Kept := by
  have old (u : Nat) (there : s.alive u = true) : u ≠ s.nextTransaction := ne_of_lt (tree.bound u there)
  have split (u : Nat) (there : update s.alive s.nextTransaction true u = true) :
      u = s.nextTransaction ∨ s.alive u = true := by
    by_cases same : u = s.nextTransaction
    · exact .inl same
    · rw [update_of_ne same] at there
      exact .inr there
  refine ⟨kept.top, ?_, ?_, ?_, ?_, ?_, ?_, ?_, ?_, ?_, ?_, kept.bounded, kept.fault⟩
  · intro u k there c mem
    dsimp only at mem
    rcases split u there with rfl | there
    · rw [update_self] at mem
      exact absurd mem not_mem_nil
    · rw [update_of_ne (old u there)] at mem
      exact kept.new u k there c mem
  · intro u k there c mem
    dsimp only at mem
    rcases split u there with rfl | there
    · rw [update_self] at mem
      exact absurd mem not_mem_nil
    · rw [update_of_ne (old u there)] at mem
      exact kept.deleted u k there c mem
  · intro u there c mem
    dsimp only at mem ⊢
    rcases split u there with rfl | there
    · rw [update_self] at mem
      exact absurd mem not_mem_nil
    · rw [update_of_ne (old u there)] at mem ⊢
      exact kept.resolved u there c mem
  · intro u there
    dsimp only
    rcases split u there with rfl | there
    · rw [update_self]
      exact nodup_nil
    · rw [update_of_ne (old u there)]
      exact kept.resolvedNodup u there
  · intro u there stale c mem
    dsimp only at stale mem ⊢
    rcases split u there with rfl | there
    · rw [update_self] at mem
      exact absurd mem not_mem_nil
    · rw [update_of_ne (old u there)] at stale mem ⊢
      exact kept.solved u there stale c mem
  · intro c live
    refine ⟨(kept.placed c live).1, fun u own => ?_⟩
    obtain ⟨there, place⟩ := (kept.placed c live).2 u own
    dsimp only
    rw [update_of_ne (old u there), update_of_ne (old u there)]
    exact ⟨there, place⟩
  · intro u there c mem
    dsimp only at mem ⊢
    rcases split u there with rfl | there
    · rw [update_self] at mem
      exact absurd mem not_mem_nil
    · rw [update_of_ne (old u there)] at mem ⊢
      exact kept.globals u there c mem
  · intro u there
    dsimp only
    rcases split u there with rfl | there
    · rw [update_self]
      exact nodup_nil
    · rw [update_of_ne (old u there)]
      exact kept.globalsNodup u there
  · intro u there stale c is
    dsimp only at stale is ⊢
    rcases split u there with rfl | there
    · rw [update_self] at is ⊢
      obtain ⟨live, p, parent, from', owner⟩ := target c is
      refine ⟨live, p, parent, ?_⟩
      rwa [update_of_ne (old p from')]
    · rw [update_of_ne (old u there)] at stale is ⊢
      obtain ⟨live, p, parent, owner⟩ := kept.target u there stale c is
      refine ⟨live, p, parent, ?_⟩
      rwa [update_of_ne (old p (tree.older u p there parent).2)]
  · intro u there stale w bound alive
    dsimp only at stale alive ⊢
    rcases split u there with rfl | there
    · rw [update_self] at stale
      cases stale
    · rw [update_of_ne (old u there)] at stale
      rcases split w alive with rfl | alive
      · rw [update_self]
        intro child
        rw [fresh u child] at stale
        cases stale
      · rw [update_of_ne (old w alive)]
        exact kept.staleLeaf u there stale w (tree.bound w alive) alive

theorem Kept.ready (kept : s.Kept) (filed : s.Filed) (alive : s.alive t = true)
    (parent : (s.trans t).parent = some p) : s.Ready t p := by
  obtain ⟨older, there⟩ := filed.older t p alive parent
  refine ⟨ne_of_lt older, fun c mem => (kept.resolved t alive c mem).1, ?_, ?_,
    fun k => filed.deletedNodup t k alive, fun k => filed.newNodup p k there, ?_, ?_, ?_⟩
  · refine eq_nil_iff_forall_not_mem.mpr fun c mem => ?_
    have root := (kept.globals t alive c mem).2.2.2.1
    rw [parent] at root
    cases root
  · intro k c mem
    refine ⟨kept.deleted t k alive c mem, fun also => ?_⟩
    have one := (filed.deleted t k alive c mem).1
    have other := (filed.deleted t (!k) alive c also).1
    exact absurd (one.symm.trans other) (by cases k <;> simp)
  · intro k c mem
    refine ⟨kept.new t k alive c mem, fun j gone => ?_⟩
    have owner := (filed.new t k alive c mem).1
    rcases (filed.deleted t j alive c gone).2.2 with none | ⟨a, above, own⟩
    · rw [owner] at none
      cases none
    · rw [owner] at own
      cases own
      exact absurd (filed.above_alive alive t above).2 (lt_irrefl t)
  · intro k c mem
    refine ⟨kept.new p k there c mem, fun also => ?_⟩
    have one := (filed.new p k there c mem).2.1
    have other := (filed.new p (!k) there c also).2.1
    exact absurd (one.symm.trans other) (by cases k <;> simp)
  · intro c mem
    obtain ⟨live, free, -⟩ := kept.globals p there c mem
    refine ⟨live, fun j made => ?_⟩
    rw [(filed.new p j there c made).1] at free
    cases free

theorem Kept.resolved_apart (kept : s.Kept) (filed : s.Filed) (alive : s.alive t = true) (fresh : s.stale t = false)
    (parent : (s.trans t).parent = some p) :
    ((s.trans p).resolvedConflicts ++ (s.trans t).resolvedConflicts).Nodup := by
  obtain ⟨older, there⟩ := filed.older t p alive parent
  have chain : s.above t = p :: s.above p := (above_sub parent).trans (filed.lineage_cons there)
  refine Nodup.append (kept.resolvedNodup p there) (kept.resolvedNodup t alive) fun c up low => ?_
  obtain ⟨-, own | passed⟩ := kept.resolved t alive c low
  · obtain ⟨-, own' | passed'⟩ := kept.resolved p there c up
    · exact absurd (some.inj (own.1.symm.trans own'.1)) (ne_of_gt older)
    · rcases (filed.deleted p false there c passed').2.2 with none | ⟨a, above, own'⟩
      · rw [own.1] at none
        cases none
      · have late := (filed.above_alive there a above).2
        have same := some.inj (own.1.symm.trans own')
        omega
  · obtain ⟨-, own' | passed'⟩ := kept.resolved p there c up
    · exact own'.2 false (filed.listed t false alive fresh c passed p own'.1)
    · exact filed.cleared t false alive fresh c passed p (chain ▸ mem_cons_self) passed'

/-! Writing to conflicts and transactions -/

theorem Kept.note (kept : s.Kept) (live : s.live c = true) {f : Conflict N S → Conflict N S}
    (keeps : ∀ conf, (f conf).transaction = conf.transaction ∧ (f conf).structural = conf.structural ∧
      (f conf).node = conf.node ∧ (f conf).property = conf.property) : ((s.touch c).modifyConf c f).Kept := by
  refine kept.same (sameFiles_conf keeps) (within_touch.trans (within_modifyConf fun conf => (keeps conf).2)) rfl
    (fun _ => .refl _) ?_
  change (s.fault || !s.live c) = s.fault
  rw [live]
  simp

theorem Kept.noteGlobal (kept : s.Kept) (live : s.live c = true)
    (free : (s.conf c).transaction = none) (plain : (s.conf c).structural = false) (root : (s.trans p).parent = none)
    (apart : ∀ k, c ∉ (s.trans p).deletedConflicts k) : (s.modify p (·.noteGlobal c)).Kept := by
  let s' := s.modify p (·.noteGlobal c)
  have files : SameFiles s s' := sameFiles_noteGlobal
  have within : Within (fun _ => True) s s' :=
    .of_same files (fun _ outside => absurd trivial outside) rfl rfl rfl
  have self : (s'.trans p).globalConflictsWithSolutions = (s.trans p).globalConflictsWithSolutions ∨
      c ∉ (s.trans p).globalConflictsWithSolutions ∧
        (s'.trans p).globalConflictsWithSolutions = (s.trans p).globalConflictsWithSolutions ++ [c] := by
    have step : s'.trans p = (s.trans p).noteGlobal c := modify_self
    rw [step, Transaction.noteGlobal]
    split
    · exact .inl rfl
    · rename_i fresh
      exact .inr ⟨fresh, rfl⟩
  refine kept.point within files.new files.resolved files.owner files.stale rfl rfl ?_ ?_ ?_ ?_
  · intro u k d mem
    rwa [files.deleted]
  · intro u k there d mem
    rw [files.deleted] at mem
    exact kept.deleted u k there d mem
  · intro u there d mem
    rw [files.deleted]
    by_cases here : u = p
    · subst here
      rcases self with same | ⟨-, more⟩
      · exact kept.globals u there d (same ▸ mem)
      · rw [more] at mem
        rcases mem_append.mp mem with was | now
        · exact kept.globals u there d was
        · cases mem_singleton.mp now
          exact ⟨live, free, plain, root, apart⟩
    · rw [modify_other here] at mem
      exact kept.globals u there d mem
  · intro u there
    by_cases here : u = p
    · subst here
      rcases self with same | ⟨fresh, more⟩
      · exact same ▸ kept.globalsNodup u there
      · rw [more]
        refine Nodup.append (kept.globalsNodup u there) (nodup_singleton c) ?_
        rw [disjoint_singleton]
        exact fresh
    · rw [modify_other here]
      exact kept.globalsNodup u there

theorem Kept.modify (kept : s.Kept) {f : Transaction N S → Transaction N S} (lists : ∀ r, SameLists r (f r))
    (globals : ∀ r, (f r).globalConflictsWithSolutions = r.globalConflictsWithSolutions) : (s.modify t f).Kept := by
  refine kept.same (sameFiles_modify lists) (within_modify trivial fun r => ⟨(lists r).parent, (lists r).conflict⟩) rfl
    (fun u => ?_) rfl
  by_cases here : u = t
  · subst here
    rw [modify_self, globals]
  · rw [modify_other here]

theorem Kept.resolveFailed (kept : s.Kept) (filed : s.Filed) (innermost : s.Innermost t)
    (made : (s.trans t).conflict = some c) : (s.resolveFailed t c).Kept := by
  obtain ⟨alive, fresh, leaf⟩ := innermost
  have kept₁ := kept.cancel filed alive leaf
  have within : Within (· = t) s (s.cancel t) := within_cancel
  obtain ⟨self, -, -, stale, -⟩ := cancel_spec (s := s) (t := t)
  have live : (s.cancel t).live c = true := by
    refine (kept₁.target t ?_ ?_ c ?_).1
    · rwa [within.alive]
    · rwa [stale]
    · rwa [within.conflict]
  have ended : ((s.cancel t).delete t).Kept := kept₁.delete (by rw [self]; exact fun _ => rfl) (by rw [self]; rfl)
  have marked : ((((s.cancel t).delete t).touch c).modifyConf c fun conf => { conf with noSolution := true }).Kept :=
    ended.note live fun _ => ⟨rfl, rfl, rfl, rfl⟩
  exact marked

theorem Kept.resolveSaved (kept : s.Kept) (filed : s.Filed) (innermost : s.Innermost t)
    (parent : (s.trans t).parent = some p) (root : (s.trans p).parent = none) (made : (s.trans t).conflict = some c)
    (plain : (s.conf c).structural = false) (cleared : c ∈ (s.trans t).deletedConflicts false) :
    (s.resolveSaved t p c).Kept := by
  obtain ⟨alive, fresh, leaf⟩ := innermost
  have live := kept.deleted t false alive c cleared
  let s₁ := (s.touch c).modifyConf c fun conf => { conf with
    solution := conf.solution ++ ((s.trans t).changes.entries.filter fun change => s.modifiable change.1).map
      fun change => (change.1, change.2) }
  have files₁ : SameFiles s s₁ := sameFiles_conf fun _ => ⟨rfl, rfl, rfl, rfl⟩
  have kept₁ : s₁.Kept := kept.note live fun _ => ⟨rfl, rfl, rfl, rfl⟩
  have filed₁ : s₁.Filed := filed.same files₁
  have kept₂ : (s₁.cancel t).Kept := kept₁.cancel filed₁ alive leaf
  have filed₂ : (s₁.cancel t).Filed := filed₁.cancel leaf
  have within₁ : Within (· = t) s₁ (s₁.cancel t) := within_cancel
  let s₃ := (s₁.cancel t).cancel t
  have within₂ : Within (· = t) (s₁.cancel t) s₃ := within_cancel
  have alive₂ : (s₁.cancel t).alive t = true := (congrFun within₁.alive t).trans alive
  have kept₃ : s₃.Kept := kept₂.cancel filed₂ alive₂ (within₁.leaf leaf)
  obtain ⟨-, -, structural₁, stale₁, -⟩ := cancel_spec (s := s₁) (t := t)
  obtain ⟨self, -, structural₂, stale₂, -⟩ := cancel_spec (s := s₁.cancel t) (t := t)
  have live₃ : s₃.live c = true := by
    refine (kept₃.target t ?_ ?_ c ?_).1
    · rw [within₂.alive]
      exact alive₂
    · rw [stale₂, stale₁]
      exact fresh
    · rw [within₂.conflict, within₁.conflict]
      exact made
  have ended : (s₃.delete t).Kept := kept₃.delete (by rw [self]; exact fun _ => rfl) (by rw [self]; rfl)
  let s₄ := (s₃.delete t).touch c
  have kept₄ : s₄.Kept := by
    refine ended.same sameFiles_touch within_touch rfl (fun _ => .refl _) ?_
    change (s₃.fault || !s₃.live c) = s₃.fault
    rw [live₃]
    simp
  change (if (s₄.conf c).transaction = none then s₄.modify p (·.noteGlobal c) else s₄).Kept
  split
  · rename_i free
    have plain₃ : (s₃.conf c).structural = false := (structural₂ c).trans ((structural₁ c).trans
      ((files₁.structural c).trans plain))
    refine kept₄.noteGlobal live₃ free plain₃ ?_ fun k => ?_
    · exact (within₂.parent p).trans ((within₁.parent p).trans root)
    · change c ∉ (s₃.trans p).deletedConflicts k
      have other : p ≠ t := ne_of_lt (filed.older t p alive parent).1
      rw [within₂.others p other, within₁.others p other]
      intro also
      have there := (filed.older t p alive parent).2
      have up : p ∈ s.above t := by
        rw [above_sub parent, filed.lineage_cons there]
        exact mem_cons_self
      have kind := (filed.deleted p k there c also).1
      rw [plain] at kind
      exact filed.cleared t false alive fresh c cleared p up (kind ▸ also)
  · exact kept₄

end Ecos.Cdl.Config
