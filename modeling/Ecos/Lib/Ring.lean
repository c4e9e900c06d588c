import Mathlib.Data.List.Rotate

namespace Ring
open Function List

/-- The two pointers of every node of a heap of doubly linked nodes. A node
that is on no list points at itself in both directions. -/
structure Nodes (α : Type*) where
  next : α → α
  prev : α → α

namespace Nodes
variable {α : Type*}

/-- Every node on its own, as the node constructor leaves it. -/
def single : Nodes α := ⟨id, id⟩

/-- The pointers along the path that leaves `a`, runs through `l` and arrives
at `b`, read in both directions. -/
def Seg (n : Nodes α) : α → List α → α → Prop
  | a, [], b => n.next a = b ∧ n.prev b = a
  | a, x :: l, b => (n.next a = x ∧ n.prev x = a) ∧ n.Seg x l b

/-- The pointers of the circular list whose elements from the head on are `l`. -/
def IsRing (n : Nodes α) : List α → Prop
  | [] => True
  | x :: l => n.Seg x l x

variable {n n' : Nodes α} {a b x y z this node : α} {l l' : List α}

theorem seg_append : n.Seg a (l ++ x :: l') b ↔ n.Seg a l x ∧ n.Seg x l' b := by
  induction l generalizing a with
  | nil => rfl
  | cons y l ih => simp only [cons_append, Seg, ih, and_assoc]

/-- The pointers of a circular list do not say where it starts. -/
theorem isRing_append_comm : n.IsRing (l ++ l') ↔ n.IsRing (l' ++ l) := by
  cases l with
  | nil => simp
  | cons x l =>
    cases l' with
    | nil => simp
    | cons y l' =>
      simp only [cons_append, IsRing, seg_append]
      exact and_comm

theorem Seg.congr (seg : n.Seg a l b)
    (next : ∀ z ∈ a :: l, n'.next z = n.next z) (prev : ∀ z ∈ b :: l, n'.prev z = n.prev z) :
    n'.Seg a l b := by
  induction l generalizing a with
  | nil =>
    simp only [mem_singleton, forall_eq] at next prev
    exact ⟨next.trans seg.1, prev.trans seg.2⟩
  | cons x l ih =>
    obtain ⟨⟨atNext, atPrev⟩, rest⟩ := seg
    refine ⟨⟨(next a (by simp)).trans atNext, (prev x (by simp)).trans atPrev⟩, ih rest ?_ ?_⟩
    · intro z mem
      exact next z (mem_cons_of_mem _ mem)
    · intro z mem
      refine prev z ?_
      rcases mem_cons.mp mem with same | inner
      · exact same ▸ mem_cons_self ..
      · exact mem_cons_of_mem _ (mem_cons_of_mem _ inner)

theorem IsRing.congr (ring : n.IsRing l)
    (next : ∀ z ∈ l, n'.next z = n.next z) (prev : ∀ z ∈ l, n'.prev z = n.prev z) : n'.IsRing l := by
  cases l with
  | nil => trivial
  | cons x l => exact Seg.congr ring next prev

theorem Seg.next_mem (seg : n.Seg a l b) (mem : z ∈ a :: l) : n.next z ∈ b :: l := by
  induction l generalizing a with
  | nil =>
    obtain rfl := mem_singleton.mp mem
    exact seg.1 ▸ mem_cons_self ..
  | cons x l ih =>
    rcases mem_cons.mp mem with same | inner
    · subst same
      exact seg.1.1 ▸ mem_cons_of_mem _ (mem_cons_self ..)
    · have later := ih seg.2 inner
      simp only [mem_cons] at later ⊢
      exact later.imp_right .inr

theorem Seg.prev_mem (seg : n.Seg a l b) (mem : z ∈ b :: l) : n.prev z ∈ a :: l := by
  induction l generalizing a with
  | nil =>
    obtain rfl := mem_singleton.mp mem
    exact seg.2 ▸ mem_cons_self ..
  | cons x l ih =>
    have split : z = x ∨ z ∈ b :: l := by
      simp only [mem_cons] at mem ⊢
      tauto
    rcases split with same | inner
    · subst same
      exact seg.1.2 ▸ mem_cons_self ..
    · exact mem_cons_of_mem _ (ih seg.2 inner)

/-- Following either pointer from an element of a circular list stays on it. -/
theorem IsRing.prev_mem (ring : n.IsRing l) (mem : z ∈ l) : n.prev z ∈ l := by
  cases l with
  | nil => simp at mem
  | cons x l => exact Seg.prev_mem ring mem

theorem IsRing.next_mem (ring : n.IsRing l) (mem : z ∈ l) : n.next z ∈ l := by
  cases l with
  | nil => simp at mem
  | cons x l => exact Seg.next_mem ring mem

/-- The predecessor of the head is the last element. -/
theorem IsRing.prev_head (ring : n.IsRing (x :: l)) : n.prev x = (x :: l).getLast (by simp) := by
  induction l using reverseRecOn with
  | nil => simpa [IsRing, Seg] using ring.2
  | append_singleton l y _ =>
    simp only [IsRing, seg_append, Seg] at ring
    simpa using ring.2.2

/-- The predecessor of an inner element is the element before it. -/
theorem IsRing.prev_inner (ring : n.IsRing ((x :: l) ++ y :: l')) : n.prev y = (x :: l).getLast (by simp) := by
  induction l using reverseRecOn with
  | nil => exact ring.1.2
  | append_singleton l z _ =>
    simp only [cons_append, append_assoc, nil_append, IsRing, seg_append, Seg] at ring
    simpa using ring.2.1.2

/-- The head alone is its own successor; a second element is not. -/
theorem IsRing.next_head (ring : n.IsRing (x :: l)) : n.next x = (l ++ [x]).head (by simp) := by
  cases l with
  | nil => simpa [IsRing, Seg] using ring.1
  | cons y l => simpa [IsRing, Seg] using ring.1.1

theorem Seg.unique (seg : n.Seg a l b) (seg' : n.Seg a l' b) (off : b ∉ l) (off' : b ∉ l') : l = l' := by
  induction l generalizing a l' with
  | nil =>
    cases l' with
    | nil => rfl
    | cons y l' => exact absurd (mem_cons.mpr (.inl (seg.1.symm.trans seg'.1.1))) off'
  | cons x l ih =>
    cases l' with
    | nil => exact absurd (mem_cons.mpr (.inl (seg'.1.symm.trans seg.1.1))) off
    | cons y l' =>
      obtain rfl : x = y := seg.1.1.symm.trans seg'.1.1
      rw [ih seg.2 seg'.2 (fun mem => off (mem_cons_of_mem x mem))
        fun mem => off' (mem_cons_of_mem x mem)]

/-- A circular list that comes back to its head at the end only is read off its pointers. -/
theorem IsRing.unique (ring : n.IsRing (x :: l)) (ring' : n.IsRing (x :: l'))
    (off : x ∉ l) (off' : x ∉ l') : l = l' := Seg.unique ring ring' off off'

section Update
variable [DecidableEq α]

/-- Insert `node` before `this`, so that it becomes its predecessor. -/
def insert (n : Nodes α) (this node : α) : Nodes α :=
  let n := { n with next := Function.update n.next node this }
  let n := { n with prev := Function.update n.prev node (n.prev this) }
  let n := { n with next := Function.update n.next (n.prev this) node }
  { n with prev := Function.update n.prev this node }

/-- Insert `node` after `this`, so that it becomes its successor. -/
def append (n : Nodes α) (this node : α) : Nodes α :=
  let n := { n with prev := Function.update n.prev node this }
  let n := { n with next := Function.update n.next node (n.next this) }
  let n := { n with prev := Function.update n.prev (n.next this) node }
  { n with next := Function.update n.next this node }

/-- Take `this` out of whatever list it is on; harmless on a node alone. -/
def unlink (n : Nodes α) (this : α) : Nodes α :=
  let n := { n with prev := Function.update n.prev (n.next this) (n.prev this) }
  let n := { n with next := Function.update n.next (n.prev this) (n.next this) }
  { next := Function.update n.next this this, prev := Function.update n.prev this this }

theorem unlink_alone (next : n.next x = x) (prev : n.prev x = x) : n.unlink x = n := by
  have sameNext : update n.next x x = n.next := update_eq_self_iff.mpr next.symm
  have samePrev : update n.prev x x = n.prev := update_eq_self_iff.mpr prev.symm
  simp [unlink, next, prev, sameNext, samePrev]

theorem insert_next_of_ne (apart : node ≠ this)
    (ne : z ≠ node) (ne' : z ≠ n.prev this) : (n.insert this node).next z = n.next z := by
  simp [insert, ne, ne', apart.symm]

theorem insert_prev_of_ne (ne : z ≠ node) (ne' : z ≠ this) : (n.insert this node).prev z = n.prev z := by
  simp [insert, update_apply, ne, ne']

theorem append_next_of_ne (ne : z ≠ node) (ne' : z ≠ this) : (n.append this node).next z = n.next z := by
  simp [append, update_apply, ne, ne']

theorem append_prev_of_ne (apart : node ≠ this)
    (ne : z ≠ node) (ne' : z ≠ n.next this) : (n.append this node).prev z = n.prev z := by
  simp [append, ne, ne', apart.symm]

theorem unlink_next_of_ne (ne : z ≠ this) (ne' : z ≠ n.prev this) : (n.unlink this).next z = n.next z := by
  by_cases alone : this = n.next this
  · simp [unlink, ne, ne', ← alone]
  · simp [unlink, ne, ne', alone]

theorem unlink_prev_of_ne (ne : z ≠ this) (ne' : z ≠ n.next this) : (n.unlink this).prev z = n.prev z := by
  simp [unlink, update_apply, ne, ne']

theorem unlink_self : (n.unlink this).next this = this ∧ (n.unlink this).prev this = this := by
  simp [unlink]

/-- A fresh node inserted before the head of a ring becomes its tail. -/
theorem IsRing.insert_head (ring : n.IsRing (x :: l))
    (nodup : (x :: l).Nodup) (fresh : node ∉ x :: l) : (n.insert x node).IsRing (x :: l ++ [node]) := by
  have apart : node ≠ x := fun same => fresh (same ▸ mem_cons_self ..)
  have last := ring.prev_head
  simp only [cons_append, IsRing, seg_append, Seg]
  induction l using reverseRecOn with
  | nil =>
    simp [Seg, Nodes.insert, last, apart, apart.symm]
  | append_singleton l y _ =>
    simp only [getLast_cons (concat_ne_nil _ _), getLast_concat] at last
    simp only [IsRing, seg_append, Seg] at ring
    simp only [nodup_cons, nodup_append, mem_append, mem_singleton] at nodup
    simp only [mem_cons, mem_append, not_or] at fresh
    have yx : y ≠ x := fun same => nodup.1 (.inr same.symm)
    have ynode : y ≠ node := fun same => fresh.2.2.1 same.symm
    simp only [seg_append, Seg]
    refine ⟨⟨ring.1.congr ?_ ?_, ?_⟩, ?_⟩
    · intro z mem
      refine insert_next_of_ne apart ?_ ?_
      · rintro rfl; simp only [mem_cons] at mem; tauto
      · rw [last]
        rintro rfl
        rcases mem_cons.mp mem with same | inner
        · exact yx same
        · exact nodup.2.2.2 z inner z rfl rfl
    · intro z mem
      refine insert_prev_of_ne ?_ ?_
      · rintro rfl; simp only [mem_cons] at mem; tauto
      · rintro rfl; simp only [mem_cons] at mem; tauto
    · simp [Nodes.insert, last, apart, apart.symm]
    · simp [Nodes.insert, last, apart.symm, ynode.symm]

/-- A fresh node appended to the head of a ring becomes its second element. -/
theorem IsRing.append_head (ring : n.IsRing (x :: l))
    (nodup : (x :: l).Nodup) (fresh : node ∉ x :: l) : (n.append x node).IsRing (x :: node :: l) := by
  have apart : node ≠ x := fun same => fresh (same ▸ mem_cons_self ..)
  cases l with
  | nil =>
    simp only [IsRing, Seg] at ring ⊢
    simp [Nodes.append, ring.1, apart, apart.symm]
  | cons y l =>
    obtain ⟨⟨second, back⟩, rest⟩ := ring
    simp only [nodup_cons, mem_cons, not_or] at nodup fresh
    refine ⟨?_, ?_, rest.congr ?_ ?_⟩
    · simp [Nodes.append, apart.symm, second, fresh.2.1]
    · simp [Nodes.append, second, apart, apart.symm]
    · intro z mem
      refine append_next_of_ne ?_ ?_
      · rintro rfl; simp only [mem_cons] at mem; tauto
      · rintro rfl; simp only [mem_cons] at mem; tauto
    · intro z mem
      refine append_prev_of_ne apart ?_ ?_
      · rintro rfl; simp only [mem_cons] at mem; tauto
      · rw [second]
        rintro rfl
        simp only [mem_cons] at mem
        rcases mem with same | inner
        · exact nodup.1.1 same.symm
        · exact nodup.2.1 inner

/-- Unlinking the head of a ring leaves the ring of the others. -/
theorem IsRing.unlink_head (ring : n.IsRing (x :: l)) (nodup : (x :: l).Nodup) : (n.unlink x).IsRing l := by
  cases l with
  | nil => trivial
  | cons y l =>
    obtain ⟨⟨second, back⟩, rest⟩ := ring
    simp only [nodup_cons, mem_cons, not_or] at nodup
    obtain ⟨⟨xy, xl⟩, yl, unique⟩ := nodup
    induction l using reverseRecOn with
    | nil =>
      obtain ⟨forth, last⟩ := rest
      simp [IsRing, Seg, unlink, second, last, xy, Ne.symm xy]
    | append_singleton l z _ =>
      simp only [seg_append, Seg] at rest
      obtain ⟨path, forth, last⟩ := rest
      simp only [mem_append, mem_singleton, not_or, nodup_append] at xl yl unique
      simp only [IsRing, seg_append, Seg]
      refine ⟨path.congr ?_ ?_, ?_, ?_⟩
      · intro w mem
        refine unlink_next_of_ne ?_ ?_
        · rintro rfl; simp only [mem_cons] at mem; tauto
        · rw [last]
          rintro rfl
          rcases mem_cons.mp mem with same | inner
          · exact yl.2 same.symm
          · exact unique.2.2 w inner w rfl rfl
      · intro w mem
        refine unlink_prev_of_ne ?_ ?_
        · rintro rfl; simp only [mem_cons] at mem; tauto
        · rw [second]
          rintro rfl
          simp only [mem_cons] at mem
          tauto
      · simp [unlink, second, last, xy, Ne.symm xl.2]
      · simp [unlink, second, last, Ne.symm xy]

end Update

end Nodes

end Ring
