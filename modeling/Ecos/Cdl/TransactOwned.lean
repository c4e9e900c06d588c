import Ecos.Cdl.TransactOwners
import Ecos.Cdl.TransactSnapshots

namespace Ecos.Cdl.Config
open List Option Config Function
variable {N S : Type*} [DecidableEq N] {s s' : Config N S} {t u p c d a : Nat} {v n : N} {k : Bool}

theorem transfer_stale : (s.transfer t p).stale = s.stale := by
  have resolved (l : List Nat) (s : Config N S) : (l.foldl (commitResolved t p) s).stale = s.stale := by
    refine foldl_keeps stale (fun s c => ?_) l
    unfold commitResolved
    dsimp only
    split <;> rfl
  have global (l : List Nat) (s : Config N S) : (l.foldl (commitGlobal p) s).stale = s.stale :=
    foldl_keeps stale (by intros; rfl) l
  have deleted (conflict : Option Nat) (l : List Nat) (s : Config N S) :
      (l.foldl (commitDeleted conflict p) s).stale = s.stale := by
    refine foldl_keeps stale (fun s c => ?_) l
    unfold commitDeleted
    dsimp only
    split_ifs <;> rfl
  have structural (l : List Nat) (s : Config N S) : (l.foldl (commitDeletedStructural p) s).stale = s.stale := by
    refine foldl_keeps stale (fun s c => ?_) l
    unfold commitDeletedStructural
    dsimp only
    split <;> rfl
  have change (l : List (Sigma fun _ : N => CdlValue S)) (s : Config N S) :
      (l.foldl (commitChange p) s).stale = s.stale := by
    refine foldl_keeps stale (fun s change => ?_) l
    have files : SameFiles (s.modify p (·.insertChange change)) (commitChange p s change) := sameFiles_updateSolutions
    exact files.stale
  have new (k : Bool) (l : List Nat) (s : Config N S) : (l.foldl (commitNew k p) s).stale = s.stale :=
    foldl_keeps stale (by intros; rfl) l
  change stale (((s.trans t).newConflicts true).foldl (commitNew true p) _) = _
  rw [new, new, change, structural, deleted, global, resolved]

/-- After a commit the parent's lists hold what the sub-transaction's held, and all that is left lies where its owner
says, provided that nobody else points to what is destroyed. -/
theorem Kept.commitSub (kept : s.Kept) (filed : s.Filed) (innermost : s.Innermost t) (siblings : s.SiblingsLeft t)
    (parent : (s.trans t).parent = some p) (alone : ∀ k c, s.Destroys t p k c → (s.trans t).conflict ≠ some c ∧
      ∀ u < s.nextTransaction, s.alive u = true ∧ (s.trans u).parent = some p ∧ u ≠ t →
        ∀ j, c ∉ (s.trans u).deletedConflicts j) : (s.commitSub t p).Kept := by
  obtain ⟨alive, fresh, leaf⟩ := id innermost
  obtain ⟨older, there⟩ := filed.older t p alive parent
  obtain ⟨new, deleted, keeps, moves⟩ := filed.commitSub_spec alive parent
  have ready := kept.ready filed alive parent
  obtain ⟨live, fault, globals, gone, resolvedNodup, resolved⟩ :=
    ready.transfer (kept.globalsNodup p there) (kept.resolved_apart filed alive fresh parent)
  have within : Within (fun u => u = t ∨ u = p) s (s.commitSub t p) := within_commitSub
  obtain ⟨self, up⟩ := commitSub_trans (s := s) (ne_of_lt older)
  rw [← up] at globals gone resolvedNodup resolved
  have others (u : Nat) (notSub : u ≠ t) (notParent : u ≠ p) : (s.commitSub t p).trans u = s.trans u :=
    within.others u (not_or.mpr ⟨notSub, notParent⟩)
  have left (d : Nat) : (s.commitSub t p).live d = true ↔ s.live d = true ∧ ∀ k, ¬ s.Destroys t p k d := by
    change (s.transfer t p).live d = true ↔ _
    rw [live, Bool.and_eq_true]
    simp [Bool.forall_bool]
  have ownedUp (k : Bool) (d : Nat) (destroyed : s.Destroys t p k d) : (s.conf d).transaction = some p :=
    (filed.new p k there d destroyed.2.1).1
  have stays (d : Nat) (live : s.live d = true) (other : (s.conf d).transaction ≠ some p) :
      (s.commitSub t p).live d = true :=
    (left d).mpr ⟨live, fun k destroyed => other (ownedUp k d destroyed)⟩
  have apart (k j : Bool) (d : Nat) (notNew : d ∉ (s.trans p).newConflicts k) (kind : (s.conf d).structural = k)
      (destroyed : s.Destroys t p j d) : False := by
    have same := (filed.new p j there d destroyed.2.1).2.1
    exact notNew (by rw [← kind, same]; exact destroyed.2.1)
  have ownMoves (d : Nat) (live : s.live d = true) (own : (s.conf d).transaction = some t) :
      ((s.commitSub t p).conf d).transaction = some p := by
    refine transfer_owner.trans (if_pos ?_)
    rcases ((kept.placed d live).2 t own).2 with ⟨k, made⟩ | solved
    · cases k with
      | false => exact .inl made
      | true => exact .inr (.inl made)
    · exact .inr (.inr ⟨solved, own⟩)
  have higher (u : Nat) (there' : s.alive u = true) (k : Bool) (d : Nat)
      (mem : d ∈ (s.trans u).deletedConflicts k) : (s.conf d).transaction ≠ some u := by
    intro own
    rcases (filed.deleted u k there' d mem).2.2 with none | ⟨a, above, own'⟩
    · rw [own] at none
      cases none
    · have late := (filed.above_alive there' a above).2
      exact absurd (some.inj (own.symm.trans own')) (ne_of_gt late)
  have pointed (u : Nat) (notSub : u ≠ t) (there' : s.alive u = true) (k : Bool) (d : Nat)
      (mem : d ∈ (s.trans u).deletedConflicts k) : (s.commitSub t p).live d = true := by
    refine (left d).mpr ⟨kept.deleted u k there' d mem, fun j destroyed => ?_⟩
    have own := ownedUp j d destroyed
    rcases (filed.deleted u k there' d mem).2.2 with none | ⟨a, above, own'⟩
    · rw [own] at none
      cases none
    · rw [own] at own'
      cases own'
      have child := filed.below_parent innermost siblings parent there' above
      exact (alone j d destroyed).2 u (filed.bound u there') ⟨there', child, notSub⟩ k mem
  -- what the parent gets to know of the sub-transaction's
  have passedOn (d : Nat) (k : Bool) (mem : d ∈ (s.trans t).deletedConflicts k)
      (notNew : d ∉ (s.trans p).newConflicts k) : d ∈ ((s.commitSub t p).trans p).deletedConflicts k ∧
      (s.commitSub t p).live d = true := by
    refine ⟨?_, (left d).mpr ⟨kept.deleted t k alive d mem, fun j => ?_⟩⟩
    · rw [deleted]
      exact mem_append_right _ (mem_filter.mpr ⟨mem, by simpa using notNew⟩)
    · exact apart k j d notNew (filed.deleted t k alive d mem).1
  have notUp (d : Nat) (k : Bool) (mem : d ∈ (s.trans t).deletedConflicts false) :
      d ∉ ((s.commitSub t p).trans p).newConflicts k := by
    rw [new]
    intro made
    rcases mem_append.mp made with was | made
    · have old := (diff_subset _ _) was
      have kind := (filed.new p k there d old).2.1.symm.trans (filed.deleted t false alive d mem).1
      subst kind
      exact ((Nodup.mem_sdiff_iff (filed.newNodup p false there)).mp was).2 mem
    · exact higher t alive false d mem (filed.new t k alive d made).1
  have solvedUp (d : Nat) (mem : d ∈ (s.trans t).deletedConflicts false)
      (survives : ∀ k, ¬ s.Destroys t p k d) : (s.commitSub t p).live d = true ∧
      (((s.commitSub t p).conf d).transaction = some p ∧ (∀ k, d ∉ ((s.commitSub t p).trans p).newConflicts k) ∨
        d ∈ ((s.commitSub t p).trans p).deletedConflicts false) := by
    refine ⟨(left d).mpr ⟨kept.deleted t false alive d mem, survives⟩, ?_⟩
    by_cases made : d ∈ (s.trans p).newConflicts false
    · have own := (filed.new p false there d made).1
      refine .inl ⟨(keeps d ?_).trans own, fun k => notUp d k mem⟩
      rw [own]
      simpa using ne_of_lt older
    · exact .inr (passedOn d false mem made).1
  constructor
  · intro k c mem
    rw [within.conflicts] at mem
    exact stays c (kept.top k c mem) (by rw [(filed.top k c mem).1]; simp)
  · intro u k there' c mem
    rw [within.alive] at there'
    by_cases isSub : u = t
    · subst isSub
      rw [self] at mem
      exact absurd mem not_mem_nil
    by_cases isParent : u = p
    · subst isParent
      rw [new] at mem
      rcases mem_append.mp mem with was | made
      · have old := (diff_subset _ _) was
        refine (left c).mpr ⟨kept.new u k there c old, fun j destroyed => ?_⟩
        have kind := (filed.new u k there c old).2.1.symm.trans (filed.new u j there c destroyed.2.1).2.1
        subst kind
        exact ((Nodup.mem_sdiff_iff (filed.newNodup u k there)).mp was).2 destroyed.1
      · refine stays c (kept.new t k alive c made) ?_
        rw [(filed.new t k alive c made).1]
        simpa using ne_of_gt older
    · rw [others u isSub isParent] at mem
      refine stays c (kept.new u k there' c mem) ?_
      rw [(filed.new u k there' c mem).1]
      simpa using isParent
  · intro u k there' c mem
    rw [within.alive] at there'
    by_cases isSub : u = t
    · subst isSub
      rw [self] at mem
      exact absurd mem not_mem_nil
    by_cases isParent : u = p
    · subst isParent
      rw [deleted] at mem
      rcases mem_append.mp mem with was | passed
      · exact stays c (kept.deleted u k there c was) (higher u there k c was)
      · obtain ⟨from', notNew⟩ := mem_filter.mp passed
        exact (passedOn c k from' (by simpa using notNew)).2
    · rw [others u isSub isParent] at mem
      exact pointed u isSub there' k c mem
  · intro u there' c mem
    rw [within.alive] at there'
    by_cases isSub : u = t
    · subst isSub
      rw [self] at mem
      exact absurd mem not_mem_nil
    by_cases isParent : u = p
    · subst isParent
      rcases (resolved c).mp mem with was | was | ⟨mem, is⟩
      · obtain ⟨live, own | passed⟩ := kept.resolved u there c was
        · refine ⟨(left c).mpr ⟨live, fun k destroyed => own.2 k destroyed.2.1⟩, .inl ⟨?_, fun k made => ?_⟩⟩
          · refine (keeps c ?_).trans own.1
            rw [own.1]
            simpa using ne_of_lt older
          · rw [new] at made
            rcases mem_append.mp made with old | made
            · exact own.2 k ((diff_subset _ _) old)
            · exact absurd (some.inj (own.1.symm.trans (filed.new t k alive c made).1)) (ne_of_lt older)
        · refine ⟨stays c live (higher u there false c passed), .inr ?_⟩
          rw [deleted]
          exact mem_append_left _ passed
      · obtain ⟨live, own | passed⟩ := kept.resolved t alive c was
        · have notUp : (s.conf c).transaction ≠ some u := by
            rw [own.1]
            simpa using ne_of_gt older
          refine ⟨stays c live notUp, .inl ⟨ownMoves c live own.1, fun k made => ?_⟩⟩
          rw [new] at made
          rcases mem_append.mp made with old | made
          · exact notUp (filed.new u k there c ((diff_subset _ _) old)).1
          · exact own.2 k made
        · refine solvedUp c passed fun k destroyed => ?_
          have own := ownedUp k c destroyed
          rcases kept.solved t alive fresh c was with owner | none | is
          · exact absurd (some.inj (own.symm.trans owner)) (ne_of_lt older)
          · rw [own] at none
            cases none
          · exact (alone k c destroyed).1 is
      · exact solvedUp c mem fun k destroyed => (alone k c destroyed).1 is
    · rw [others u isSub isParent] at mem ⊢
      obtain ⟨live, own | passed⟩ := kept.resolved u there' c mem
      · have notUp : (s.conf c).transaction ≠ some p := by
          rw [own.1]
          simpa using isParent
        refine ⟨stays c live notUp, .inl ⟨(keeps c ?_).trans own.1, own.2⟩⟩
        rw [own.1]
        simpa using isSub
      · exact ⟨pointed u isSub there' false c passed, .inr passed⟩
  · intro u there'
    rw [within.alive] at there'
    by_cases isSub : u = t
    · subst isSub
      rw [self]
      exact nodup_nil
    by_cases isParent : u = p
    · exact isParent ▸ resolvedNodup
    · rw [others u isSub isParent]
      exact kept.resolvedNodup u there'
  · intro u there' fresh' c mem
    rw [within.alive] at there'
    rw [within.conflict]
    have was := (commitSub_stale fresh').1
    by_cases isSub : u = t
    · subst isSub
      rw [self] at mem
      exact absurd mem not_mem_nil
    by_cases isParent : u = p
    · subst isParent
      have step (live : s.live c = true) (owner : (s.conf c).transaction = some t ∨
          (s.conf c).transaction = some u ∨ (s.conf c).transaction = none ∨ (s.trans u).conflict = some c) :
          ((s.commitSub t u).conf c).transaction = some u ∨ ((s.commitSub t u).conf c).transaction = none ∨
            (s.trans u).conflict = some c := by
        rcases owner with own | own | own | is
        · exact .inl (ownMoves c live own)
        · exact .inl ((keeps c (by rw [own]; simpa using ne_of_lt older)).trans own)
        · exact .inr (.inl ((keeps c (by rw [own]; simp)).trans own))
        · exact .inr (.inr is)
      have forTarget (is : (s.trans t).conflict = some c) : (s.conf c).transaction = some u ∨
          (s.conf c).transaction = none ∨ (s.trans u).conflict = some c := by
        obtain ⟨-, q, parent', owner⟩ := kept.target t alive fresh c is
        rw [parent] at parent'
        cases parent'
        rcases owner with none | own | same
        · exact .inr (.inl none)
        · exact .inl own
        · exact .inr (.inr same)
      rcases (resolved c).mp mem with old | old | ⟨old, is⟩
      · exact step (kept.resolved u there c old).1 (.inr (kept.solved u there was c old))
      · refine step (kept.resolved t alive c old).1 ?_
        rcases kept.solved t alive fresh c old with own | none | is
        · exact .inl own
        · exact .inr (.inr (.inl none))
        · exact .inr (forTarget is)
      · exact step (kept.deleted t false alive c old) (.inr (forTarget is))
    · rw [others u isSub isParent] at mem
      rcases kept.solved u there' was c mem with own | none | is
      · exact .inl ((keeps c (by rw [own]; simpa using isSub)).trans own)
      · exact .inr (.inl ((keeps c (by rw [none]; simp)).trans none))
      · exact .inr (.inr is)
  · intro c live
    obtain ⟨was, survives⟩ := (left c).mp live
    obtain ⟨free, owned⟩ := kept.placed c was
    rw [within.conflicts, within.alive]
    by_cases own : (s.conf c).transaction = some t
    · rw [ownMoves c was own]
      refine ⟨fun none => (some_ne_none p none).elim, fun u is => ?_⟩
      cases is
      refine ⟨there, ?_⟩
      rcases (owned t own).2 with ⟨k, made⟩ | solved
      · exact .inl ⟨k, by rw [new]; exact mem_append_right _ made⟩
      · exact .inr ((resolved c).mpr (.inr (.inl solved)))
    · rw [keeps c own]
      refine ⟨free, fun u is => ?_⟩
      have isSub : u ≠ t := fun same => own (same ▸ is)
      refine ⟨(owned u is).1, ?_⟩
      by_cases isParent : u = p
      · subst isParent
        rcases (owned u is).2 with ⟨k, made⟩ | solved
        · by_cases lost : c ∈ (s.trans t).deletedConflicts k
          · refine .inr ((resolved c).mpr (.inr (.inr ?_)))
            have spared := survives k
            unfold Destroys at spared
            push Not at spared
            obtain ⟨rfl, is⟩ := spared lost made
            exact ⟨lost, is⟩
          · refine .inl ⟨k, ?_⟩
            rw [new]
            exact mem_append_left _ ((Nodup.mem_sdiff_iff (filed.newNodup u k there)).mpr ⟨made, lost⟩)
        · exact .inr ((resolved c).mpr (.inl solved))
      · rw [others u isSub isParent]
        exact (owned u is).2
  · intro u there' c mem
    rw [within.alive] at there'
    by_cases isSub : u = t
    · subst isSub
      rw [self] at mem
      exact absurd mem not_mem_nil
    by_cases isParent : u = p
    · subst isParent
      obtain ⟨live, free, plain, root, apart⟩ := kept.globals u there c (globals.subset mem)
      have owner : ((s.commitSub t u).conf c).transaction = none := (keeps c (by rw [free]; simp)).trans free
      refine ⟨stays c live (by rw [free]; simp), owner,
        (within.structural c (kept.bounded c live)).trans plain, (within.parent u).trans root, fun k lost => ?_⟩
      rw [deleted] at lost
      rcases mem_append.mp lost with was | passed
      · exact apart k was
      · have from' := (mem_filter.mp passed).1
        have kind := (filed.deleted t k alive c from').1
        rw [plain] at kind
        subst kind
        exact gone c from' free mem
    · rw [others u isSub isParent] at mem ⊢
      obtain ⟨live, free, plain, root, apart⟩ := kept.globals u there' c mem
      exact ⟨stays c live (by rw [free]; simp), (keeps c (by rw [free]; simp)).trans free,
        (within.structural c (kept.bounded c live)).trans plain, root, apart⟩
  · intro u there'
    rw [within.alive] at there'
    by_cases isSub : u = t
    · subst isSub
      rw [self]
      exact nodup_nil
    by_cases isParent : u = p
    · subst isParent
      exact globals.nodup (kept.globalsNodup u there)
    · rw [others u isSub isParent]
      exact kept.globalsNodup u there'
  · intro u there' fresh' c is
    rw [within.alive] at there'
    rw [within.conflict] at is
    obtain ⟨was, only⟩ := commitSub_stale fresh'
    obtain ⟨live, q, parent', owner⟩ := kept.target u there' was c is
    have above := kept.target_above filed.toTree there' was is
    refine ⟨(left c).mpr ⟨live, fun k destroyed => ?_⟩, q, (within.parent u).trans parent', ?_⟩
    · have own := ownedUp k c destroyed
      rcases above with none | ⟨b, higher, own'⟩
      · rw [own] at none
        cases none
      · rw [own] at own'
        cases own'
        have same := only there' (filed.below_parent innermost siblings parent there' higher)
        exact (alone k c destroyed).1 (same ▸ is)
    · have notOwn : (s.conf c).transaction ≠ some t := by
        intro own
        rcases above with none | ⟨b, higher, own'⟩
        · rw [own] at none
          cases none
        · rw [own] at own'
          cases own'
          exact filed.leaf_above leaf there' higher
      rw [keeps c notOwn, within.conflict]
      exact owner
  · intro u there' old
    rw [within.alive] at there'
    refine within.leaf ?_
    have marked : (s.commitSub t p).stale u = ((s.transfer t p).stale u ||
      ((s.commitSub t p).alive u && ((s.commitSub t p).trans u).parent = some p && u ≠ t)) := rfl
    rw [marked, transfer_stale, within.alive, within.parent] at old
    rcases Bool.or_eq_true_iff.mp old with old | sibling
    · exact kept.staleLeaf u there' old
    · simp only [Bool.and_eq_true, decide_eq_true_eq] at sibling
      exact siblings u (filed.bound u there') there' (sibling.1.2.trans parent.symm)
        (by rw [parent]; exact some_ne_none p)
  · intro c live
    exact lt_of_lt_of_le (kept.bounded c ((left c).mp live).1) within.nextConflict
  · exact fault.trans kept.fault

/-- After the toplevel's commit all conflicts that are left are global. -/
theorem Kept.commitTop (kept : s.Kept) (filed : s.Filed) (innermost : s.Innermost t)
    (root : (s.trans t).parent = none) : (s.commitTop t).Kept := by
  obtain ⟨alive, -, leaf⟩ := id innermost
  obtain ⟨trans, alives, stale, -, made, next, structural⟩ := commitTop_spec s t
  have only (u : Nat) (there : s.alive u = true) : u = t := filed.root_alone leaf root alive there
  have none_above (k : Bool) (c : Nat) (mem : c ∈ (s.trans t).deletedConflicts k) : (s.conf c).transaction = none := by
    rcases (filed.deleted t k alive c mem).2.2 with none | ⟨a, above, -⟩
    · exact none
    · rw [above_root root] at above
      exact absurd above not_mem_nil
  obtain ⟨live, fault⟩ := commitTop_memory (fun k => kept.new t k alive) (fun c mem => (kept.resolved t alive c mem).1)
    (kept.resolvedNodup t alive)
    (fun k c mem => ⟨kept.deleted t k alive c mem, none_above k c mem, fun also =>
      absurd ((filed.deleted t k alive c mem).1.symm.trans (filed.deleted t (!k) alive c also).1) (by cases k <;> simp)⟩)
    (fun k => filed.deletedNodup t k alive)
    (fun c mem => by
      obtain ⟨live, free, -, -, apart⟩ := kept.globals t alive c mem
      exact ⟨live, free, apart⟩)
  have left (d : Nat) : (s.commitTop t).live d = true ↔ s.live d = true ∧
      (d ∈ (s.trans t).resolvedConflicts → ((s.commitTop t).conf d).transaction = none) ∧
      ∀ k, d ∉ (s.trans t).deletedConflicts k := by
    rw [live, Bool.and_eq_true]
    simp only [Bool.not_eq_true', Bool.or_eq_false_iff, Bool.and_eq_false_iff, decide_eq_false_iff_not,
      not_not, Bool.forall_bool, and_assoc, imp_iff_not_or, ne_eq]
  have owner (d : Nat) : (∃ k, d ∈ (s.trans t).newConflicts k) ∧ ((s.commitTop t).conf d).transaction = none ∨
      (∀ k, d ∉ (s.trans t).newConflicts k) ∧ ((s.commitTop t).conf d).transaction = (s.conf d).transaction := by
    rw [commitTop_owner]
    by_cases new : d ∈ (s.trans t).newConflicts false ∨ d ∈ (s.trans t).newConflicts true
    · rw [if_pos new]
      exact .inl ⟨new.elim (⟨false, ·⟩) (⟨true, ·⟩), rfl⟩
    · rw [if_neg new]
      push Not at new
      refine .inr ⟨fun k => ?_, rfl⟩
      cases k with
      | false => exact new.1
      | true => exact new.2
  have listed (k : Bool) (d : Nat) : d ∈ (s.commitTop t).conflicts k ↔
      (d ∈ s.conflicts k ∨ d ∈ (s.trans t).newConflicts k) ∧ d ∉ (s.trans t).deletedConflicts k := by
    rw [commitTop_conflicts, Nodup.mem_sdiff_iff, mem_append]
    refine Nodup.append (filed.topNodup k) (filed.newNodup t k alive) fun c top new => ?_
    have free := (filed.top k c top).1
    rw [(filed.new t k alive c new).1] at free
    cases free
  have self : (s.commitTop t).trans t = (s.trans t).committed := by
    rw [trans]
    exact update_self _ _ _
  constructor
  · intro k c mem
    obtain ⟨place, stays⟩ := (listed k c).mp mem
    have kind : (s.conf c).structural = k ∧ s.live c = true := by
      rcases place with top | new
      · exact ⟨(filed.top k c top).2.1, kept.top k c top⟩
      · exact ⟨(filed.new t k alive c new).2.1, kept.new t k alive c new⟩
    refine (left c).mpr ⟨kind.2, fun _ => ?_, fun j gone => ?_⟩
    · rcases owner c with ⟨-, none⟩ | ⟨notNew, same⟩
      · exact none
      · rcases place with top | new
        · exact same.trans (filed.top k c top).1
        · exact absurd new (notNew k)
    · have same := kind.1.symm.trans (filed.deleted t j alive c gone).1
      exact stays (same ▸ gone)
  · intro u k there c mem
    rw [alives] at there
    rw [only u there, self] at mem
    exact absurd mem not_mem_nil
  · intro u k there c mem
    rw [alives] at there
    rw [only u there, self] at mem
    exact absurd mem not_mem_nil
  · intro u there c mem
    rw [alives] at there
    rw [only u there, self] at mem
    exact absurd mem not_mem_nil
  · intro u there
    rw [alives] at there
    rw [only u there, self]
    exact nodup_nil
  · intro u there _ c mem
    rw [alives] at there
    rw [only u there, self] at mem
    exact absurd mem not_mem_nil
  · intro c there
    obtain ⟨was, dealt, stays⟩ := (left c).mp there
    obtain ⟨free, owned⟩ := kept.placed c was
    rcases owner c with ⟨⟨k, new⟩, none⟩ | ⟨notNew, same⟩
    · rw [none]
      exact ⟨fun _ => ⟨k, (listed k c).mpr ⟨.inr new, stays k⟩⟩, fun u is => (some_ne_none u is.symm).elim⟩
    · refine ⟨fun none => ?_, fun u is => ?_⟩
      · obtain ⟨k, top⟩ := free (same ▸ none)
        exact ⟨k, (listed k c).mpr ⟨.inl top, stays k⟩⟩
      · obtain ⟨there, place⟩ := owned u (same ▸ is)
        rw [only u there] at place
        rcases place with ⟨k, new⟩ | solved
        · exact absurd new (notNew k)
        · rw [dealt solved] at is
          cases is
  · intro u there c mem
    rw [alives] at there
    rw [only u there, self] at mem
    exact absurd mem not_mem_nil
  · intro u there
    rw [alives] at there
    rw [only u there, self]
    exact nodup_nil
  · intro u there fresh c is
    rw [alives] at there
    rw [stale] at fresh
    rw [only u there, self] at is
    rw [only u there] at fresh
    obtain ⟨-, p, parent, -⟩ := kept.target t alive fresh c is
    rw [root] at parent
    cases parent
  · intro u there old w bound alive' child
    rw [alives] at there alive'
    rw [only w alive', self] at child
    exact some_ne_none u (child.symm.trans root)
  · intro c there
    rw [next]
    exact kept.bounded c ((left c).mp there).1
  · exact fault.trans kept.fault

/-! All acts -/

theorem Kept.access (kept : s.Kept) (filed : s.Filed) (alive : s.alive t = true) (fresh : s.stale t = false) :
    (s.access v (s.lineage t)).2.Kept := by
  obtain ⟨live, trans, safe⟩ := access_memory (s := s) (v := v) (s.lineage t)
  refine kept.same (sameFiles_access _) (within_access _) live (fun u => ?_) (safe fun a up c made => ?_)
  · rw [trans]
  · obtain ⟨there, fresh⟩ := kept.fresh_above filed.toTree alive fresh a up
    exact (kept.target a there fresh c made).1

theorem Kept.propagateValue (kept : s.Kept) (alive : s.alive t = true) : (s.propagateValue t).Kept := by
  unfold Config.propagateValue
  split
  · exact kept
  · rename_i w vs _
    let s₁ := s.modify t fun t => { t with valueChanges := vs }
    have kept₁ : s₁.Kept := kept.modify (fun _ => ⟨rfl, rfl, rfl, rfl, rfl⟩) fun _ => rfl
    obtain ⟨live, safe, globals⟩ := updateSolutions_memory (s := s₁) (t := t) (v := w)
    exact kept₁.same sameFiles_updateSolutions (within_updateSolutions trivial) live globals
      (safe (kept₁.new t false alive) fun c mem => (kept₁.globals t alive c mem).1)

/-- What a sub-transaction's commit destroys is no longer noted by a sibling, nor was it made for it. -/
def Alone (s : Config N S) (t : Nat) : Prop :=
  ∀ p ∈ (s.trans t).parent, ∀ k, ∀ c ∈ (s.trans t).deletedConflicts k, s.Destroys t p k c →
    (s.trans t).conflict ≠ some c ∧ ∀ u < s.nextTransaction,
      s.alive u = true ∧ (s.trans u).parent = some p ∧ u ≠ t → ∀ j, c ∉ (s.trans u).deletedConflicts j

/-- No global conflict is cleared where it has a solution, and what a commit destroys is not noted by a sibling. -/
def Sound (s : Config N S) : Act N S → Prop
  | .clearConflict t c => c ∉ (s.trans t).globalConflictsWithSolutions
  | .commit t | .resolveApplied t _ => s.Alone t
  | _ => True

instance (s : Config N S) (t : Nat) : Decidable (s.Alone t) :=
  inferInstanceAs (Decidable (∀ p ∈ (s.trans t).parent, ∀ k, ∀ c ∈ (s.trans t).deletedConflicts k, s.Destroys t p k c →
    (s.trans t).conflict ≠ some c ∧ ∀ u < s.nextTransaction,
      s.alive u = true ∧ (s.trans u).parent = some p ∧ u ≠ t → ∀ j, c ∉ (s.trans u).deletedConflicts j))

instance decidableSound (s : Config N S) : (e : Act N S) → Decidable (s.Sound e)
  | .clearConflict t c => inferInstanceAs (Decidable (c ∉ (s.trans t).globalConflictsWithSolutions))
  | .commit t => inferInstanceAs (Decidable (s.Alone t))
  | .resolveApplied t _ => inferInstanceAs (Decidable (s.Alone t))
  | .getWholeValue .. | .setWholeValue .. | .setActive .. | .newConflict .. | .propagateValue _ | .propagateActive _
  | .makeTop | .makeSub .. | .cancel _ | .delete _ | .resolveFailed .. | .resolveSaved .. =>
    inferInstanceAs (Decidable True)

theorem Kept.commit (kept : s.Kept) (filed : s.Filed) (innermost : s.Innermost t) (siblings : s.SiblingsLeft t)
    (alone : s.Alone t) : (s.commit t).Kept := by
  unfold Config.commit
  split
  · rename_i p parent
    exact kept.commitSub filed innermost siblings parent fun k c destroyed => alone p parent k c destroyed.1 destroyed
  · rename_i root
    exact kept.commitTop filed innermost root

theorem Kept.resolveApplied (kept : s.Kept) (filed : s.Filed) (innermost : s.Innermost t) (siblings : s.SiblingsLeft t)
    (alone : s.Alone t) (made : (s.trans t).conflict = some c) : (s.resolveApplied t c).Kept := by
  let s₁ := (s.touch c).modifyConf c fun conf => { conf with
    solutionReferences := ∅
    noSolution := false
    solution := conf.solution ++ (s.trans t).changes.entries.map fun change => (change.1, change.2) }
  have files : SameFiles s s₁ := sameFiles_conf fun _ => ⟨rfl, rfl, rfl, rfl⟩
  have kept₁ : s₁.Kept := kept.note (kept.target t innermost.1 innermost.2.1 c made).1 fun _ => ⟨rfl, rfl, rfl, rfl⟩
  have kept₂ : (s₁.commit t).Kept := kept₁.commit (filed.same files) innermost siblings alone
  have self : (s₁.commit t).trans t = (s.trans t).committed := by
    unfold Config.commit
    split
    · rename_i p parent
      exact (commitSub_trans (ne_of_lt (filed.older t p innermost.1 parent).1)).1
    · rw [(commitTop_spec s₁ t).1]
      exact update_self _ _ _
  exact kept₂.delete (by rw [self]; exact fun _ => rfl) (by rw [self]; rfl)

theorem Kept.act [BEq S] {e : Act N S} (kept : s.Kept) (filed : s.Filed) (enabled : s.Enabled e) (sound : s.Sound e) :
    (s.act e).Kept := by
  cases e with
  | getWholeValue t v => exact kept.access filed enabled.1 enabled.2
  | setWholeValue t v new =>
    have looked : (s.access v (s.lineage t)).2.Kept := kept.access filed enabled.1 enabled.2.1
    change (setWholeValue _ t v _ new).Kept
    exact looked.modify (fun _ => ⟨rfl, rfl, rfl, rfl, rfl⟩) fun _ => rfl
  | setActive t n state =>
    exact kept.modify (fun _ => ⟨rfl, rfl, rfl, rfl, rfl⟩) fun _ => rfl
  | newConflict t node property k => exact kept.newConflict enabled
  | clearConflict t c => exact kept.clearConflict filed enabled.1 enabled.2.1 sound
  | propagateValue t => exact kept.propagateValue enabled.1
  | propagateActive t =>
    change (s.modify t fun r => { r with activeChanges := r.activeChanges.tail }).Kept
    exact kept.modify (fun _ => ⟨rfl, rfl, rfl, rfl, rfl⟩) fun _ => rfl
  | makeTop =>
    refine kept.made filed.toTree ?_ ?_
    · rintro p ⟨⟩
    · rintro c ⟨⟩
  | makeSub t conflict =>
    obtain ⟨alive, fresh, known⟩ := enabled
    refine kept.made filed.toTree (fun p is => some.inj is ▸ fresh) fun c is => ?_
    rcases known with inherited | given
    · have same := inherited.symm.trans is
      exact ⟨(kept.target t alive fresh c same).1, t, rfl, alive, .inr (.inr same)⟩
    · obtain ⟨live, owner⟩ := given c is
      exact ⟨live, t, rfl, alive, owner.imp_right .inl⟩
  | cancel t => exact kept.cancel filed enabled.1 enabled.2
  | commit t => exact kept.commit filed enabled.1 enabled.2 sound
  | delete t => exact kept.delete enabled.2.2.2.2.2.1 enabled.2.2.2.2.2.2.2.1
  | resolveFailed t c => exact kept.resolveFailed filed enabled.1 enabled.2.2
  | resolveSaved t p c =>
    obtain ⟨innermost, parent, root, made, plain, cleared, -⟩ := enabled
    exact kept.resolveSaved filed innermost parent root made plain cleared
  | resolveApplied t c => exact kept.resolveApplied filed enabled.1 enabled.2.1 sound enabled.2.2.2.1

/-! The property -/

inductive Place
  | toplevel (k : Bool)
  | new (t : Nat) (k : Bool)
  | resolved (t : Nat)

/-- The conflict is in this container. The resolved conflicts of a transaction need not all be its own. -/
def At (s : Config N S) (c : Nat) : Place → Prop
  | .toplevel k => c ∈ s.conflicts k
  | .new t k => s.alive t = true ∧ c ∈ (s.trans t).newConflicts k
  | .resolved t => s.alive t = true ∧ c ∈ (s.trans t).resolvedConflicts ∧ (s.conf c).transaction = some t

/-- Every conflict has one owner and is destroyed exactly once. -/
structure Owned (s : Config N S) : Prop where
  once : ∀ c, s.live c = true → ∃! place, s.At c place
  toplevel : ∀ k, (s.conflicts k).Nodup
  new : ∀ t k, s.alive t = true → ((s.trans t).newConflicts k).Nodup
  resolved : ∀ t, s.alive t = true → (s.trans t).resolvedConflicts.Nodup
  pointers : ∀ t, s.alive t = true → ∀ c, (∃ k, c ∈ (s.trans t).deletedConflicts k) ∨
    c ∈ (s.trans t).resolvedConflicts ∨ c ∈ (s.trans t).globalConflictsWithSolutions → s.live c = true
  cleared : ∀ t, s.alive t = true → ∀ c ∈ (s.trans t).globalConflictsWithSolutions, ∀ k,
    c ∉ (s.trans t).deletedConflicts k
  fault : s.fault = false

omit [DecidableEq N] in
theorem Kept.once (kept : s.Kept) (filed : s.Filed) (live : s.live c = true) : ∃! place, s.At c place := by
  obtain ⟨free, owned⟩ := kept.placed c live
  have noneTop (k : Bool) (top : c ∈ s.conflicts k) : (s.conf c).transaction = none ∧ (s.conf c).structural = k :=
    ⟨(filed.top k c top).1, (filed.top k c top).2.1⟩
  have someNew (t : Nat) (k : Bool) (there : s.alive t = true) (new : c ∈ (s.trans t).newConflicts k) :
      (s.conf c).transaction = some t ∧ (s.conf c).structural = k :=
    ⟨(filed.new t k there c new).1, (filed.new t k there c new).2.1⟩
  have unsolved (t : Nat) (k : Bool) (there : s.alive t = true) (own : (s.conf c).transaction = some t)
      (solved : c ∈ (s.trans t).resolvedConflicts) : c ∉ (s.trans t).newConflicts k := by
    obtain ⟨-, is | passed⟩ := kept.resolved t there c solved
    · exact is.2 k
    · rcases (filed.deleted t false there c passed).2.2 with none | ⟨a, above, is⟩
      · rw [own] at none
        cases none
      · have late := (filed.above_alive there a above).2
        exact absurd (some.inj (own.symm.trans is)) (ne_of_gt late)
  cases owner : (s.conf c).transaction with
  | none =>
    obtain ⟨k, top⟩ := free owner
    refine ⟨.toplevel k, top, fun place other => ?_⟩
    cases place with
    | toplevel j => rw [← (noneTop k top).2, ← (noneTop j other).2]
    | new t j =>
      have own := (someNew t j other.1 other.2).1
      rw [owner] at own
      cases own
    | resolved t =>
      have own := other.2.2
      rw [owner] at own
      cases own
  | some t =>
    obtain ⟨there, place⟩ := owned t owner
    rcases place with ⟨k, new⟩ | solved
    · refine ⟨.new t k, ⟨there, new⟩, fun place other => ?_⟩
      cases place with
      | toplevel j =>
        have none := (noneTop j other).1
        rw [owner] at none
        cases none
      | new u j =>
        obtain ⟨own, kind⟩ := someNew u j other.1 other.2
        rw [owner] at own
        cases own
        rw [← kind, ← (someNew t k there new).2]
      | resolved u =>
        have own := other.2.2
        rw [owner] at own
        cases own
        exact absurd new (unsolved t k there owner other.2.1)
    · refine ⟨.resolved t, ⟨there, solved, owner⟩, fun place other => ?_⟩
      cases place with
      | toplevel j =>
        have none := (noneTop j other).1
        rw [owner] at none
        cases none
      | new u j =>
        have own := (someNew u j other.1 other.2).1
        rw [owner] at own
        cases own
        exact absurd other.2 (unsolved t j there owner solved)
      | resolved u =>
        have own := other.2.2
        rw [owner] at own
        cases own
        rfl

omit [DecidableEq N] in
theorem Kept.owned (kept : s.Kept) (filed : s.Filed) : s.Owned where
  once _ live := kept.once filed live
  toplevel := filed.topNodup
  new := filed.newNodup
  resolved := kept.resolvedNodup
  pointers t there c := by
    rintro (⟨k, deleted⟩ | solved | global)
    · exact kept.deleted t k there c deleted
    · exact (kept.resolved t there c solved).1
    · exact (kept.globals t there c global).1
  cleared t there c global := (kept.globals t there c global).2.2.2.2
  fault := kept.fault

end Ecos.Cdl.Config
