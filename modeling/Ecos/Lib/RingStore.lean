import Ecos.Lib.Ring

namespace Ring
open Function List

/-- A family of circular lists over one heap of nodes: each list is only a
head pointer, and a node carries no trace of the list it is on. -/
structure Store (κ α : Type*) where
  nodes : Nodes α
  head : κ → Option α

namespace Store
variable {κ α : Type*} [DecidableEq κ] [DecidableEq α]

/-- No list has an element and every node is alone. -/
def empty : Store κ α := ⟨Nodes.single, fun _ => none⟩

def isEmpty (s : Store κ α) (k : κ) : Bool := (s.head k).isNone

def getTail (s : Store κ α) (k : κ) : Option α := (s.head k).map s.nodes.prev

def setHead (s : Store κ α) (k : κ) (x : Option α) : Store κ α :=
  { s with head := Function.update s.head k x }

def addTail (s : Store κ α) (k : κ) (node : α) : Store κ α :=
  match s.head k with
  | none => s.setHead k (some node)
  | some head => { s with nodes := s.nodes.insert head node }

def remHead (s : Store κ α) (k : κ) : Store κ α :=
  match s.head k with
  | none => s
  | some node =>
    let next := s.nodes.next node
    if next = node then s.setHead k none
    else { s with nodes := s.nodes.unlink node }.setHead k (some next)

def remove (s : Store κ α) (k : κ) (node : α) : Store κ α :=
  if s.head k = some node then s.remHead k
  else { s with nodes := s.nodes.unlink node }

def rotate (s : Store κ α) (k : κ) : Store κ α :=
  match s.head k with
  | none => s
  | some head => s.setHead k (some (s.nodes.next head))

def toHead (s : Store κ α) (k : κ) (node : α) : Store κ α := s.setHead k (some node)

def insertBefore (s : Store κ α) (k : κ) (listNode node : α) : Store κ α :=
  if s.head k = some listNode then
    { s with nodes := s.nodes.insert listNode node }.setHead k (some node)
  else { s with nodes := s.nodes.insert listNode node }

/-- The pointers represent the lists: every ring closes in both directions,
no node is on two lists or twice on one, and all other nodes are alone. -/
structure Represents (s : Store κ α) (lists : κ → List α) : Prop where
  heads : ∀ k, s.head k = (lists k).head?
  ring : ∀ k, s.nodes.IsRing (lists k)
  nodup : ∀ k, (lists k).Nodup
  disjoint : ∀ {j k x}, x ∈ lists j → x ∈ lists k → j = k
  alone : ∀ x, (∀ k, x ∉ lists k) → s.nodes.next x = x ∧ s.nodes.prev x = x

variable {s : Store κ α} {lists : κ → List α} {k : κ} {x : α}

omit [DecidableEq κ] [DecidableEq α] in
theorem represents_empty : (empty : Store κ α).Represents (fun _ => []) where
  heads _ := rfl
  ring _ := trivial
  nodup _ := nodup_nil
  disjoint mem := by simp at mem
  alone _ _ := ⟨rfl, rfl⟩

omit [DecidableEq κ] [DecidableEq α] in
theorem Represents.isEmpty_iff (rep : s.Represents lists) : s.isEmpty k = true ↔ lists k = [] := by
  rw [isEmpty, rep.heads]
  cases lists k <;> simp

omit [DecidableEq κ] [DecidableEq α] in
theorem Represents.head_some (rep : s.Represents lists) {y : α} (head : s.head k = some y) :
    ∃ l, lists k = y :: l := by
  rw [rep.heads, head?_eq_some_iff] at head
  exact head

omit [DecidableEq α] in
/-- Replace list `k` only: the others keep their pointers. -/
theorem Represents.updateList (rep : s.Represents lists) {t : Store κ α} {l : List α}
    (headK : t.head k = l.head?) (headOther : ∀ j, j ≠ k → t.head j = s.head j)
    (ringK : t.nodes.IsRing l) (nodupK : l.Nodup)
    (frameNext : ∀ j, j ≠ k → ∀ z ∈ lists j, t.nodes.next z = s.nodes.next z)
    (framePrev : ∀ j, j ≠ k → ∀ z ∈ lists j, t.nodes.prev z = s.nodes.prev z)
    (apart : ∀ j, j ≠ k → ∀ z ∈ l, z ∉ lists j)
    (alone : ∀ z, z ∉ l → (∀ j, j ≠ k → z ∉ lists j) → t.nodes.next z = z ∧ t.nodes.prev z = z) :
    t.Represents (update lists k l) where
  heads j := by
    by_cases same : j = k
    · subst same; simpa using headK
    · simpa [same] using (headOther j same).trans (rep.heads j)
  ring j := by
    by_cases same : j = k
    · subst same; simpa using ringK
    · simpa [same] using (rep.ring j).congr (frameNext j same) (framePrev j same)
  nodup j := by
    by_cases same : j = k
    · subst same; simpa using nodupK
    · simpa [same] using rep.nodup j
  disjoint {i j z} memberI memberJ := by
    by_cases atI : i = k <;> by_cases atJ : j = k
    · exact atI.trans atJ.symm
    · subst atI
      simp only [update_self, update_of_ne atJ] at memberI memberJ
      exact absurd memberJ (apart j atJ z memberI)
    · subst atJ
      simp only [update_self, update_of_ne atI] at memberI memberJ
      exact absurd memberI (apart i atI z memberJ)
    · simp only [update_of_ne atI, update_of_ne atJ] at memberI memberJ
      exact rep.disjoint memberI memberJ
  alone z absent := by
    refine alone z ?_ ?_
    · simpa using absent k
    · intro j ne
      simpa [ne] using absent j

omit [DecidableEq κ] [DecidableEq α] in
theorem Represents.other_ne (rep : s.Represents lists) {j : κ} (ne : j ≠ k) {y z : α}
    (inK : y ∈ lists k) (inJ : z ∈ lists j) : z ≠ y := by
  rintro rfl
  exact ne (rep.disjoint inJ inK)

omit [DecidableEq α] in
/-- Moving the head pointer along the ring rotates the list. -/
theorem Represents.rotateTo (rep : s.Represents lists) {l l' : List α} (split : lists k = l ++ l') :
    (s.setHead k (l' ++ l).head?).Represents (update lists k (l' ++ l)) := by
  have perm : (l' ++ l).Perm (lists k) := split ▸ perm_append_comm
  refine rep.updateList (by simp [setHead]) (fun j ne => by simp [setHead, ne]) ?_ ?_
    (fun _ _ _ _ => rfl) (fun _ _ _ _ => rfl) ?_ ?_
  · have ring := rep.ring k
    rw [split] at ring
    exact Nodes.isRing_append_comm.mp ring
  · exact perm.nodup_iff.mpr (rep.nodup k)
  · intro j ne z inK inJ
    exact ne (rep.disjoint inJ (perm.subset inK))
  · intro z absent others
    refine rep.alone z ?_
    intro j inJ
    by_cases same : j = k
    · subst same
      exact absent (perm.symm.subset inJ)
    · exact others j same inJ

omit [DecidableEq α] in
theorem Represents.rotate (rep : s.Represents lists) :
    (s.rotate k).Represents (update lists k ((lists k).rotate 1)) := by
  unfold Store.rotate
  split
  · next none =>
    rw [rep.heads, head?_eq_none_iff] at none
    rw [none, rotate_nil, ← none, update_eq_self]
    exact rep
  · next y head =>
    obtain ⟨l, split⟩ := rep.head_some head
    have ring := rep.ring k
    rw [split] at ring
    have second := ring.next_head
    have moved := rep.rotateTo (show lists k = [y] ++ l from split)
    rw [split, rotate_cons_succ, rotate_zero]
    rw [second]
    rwa [head?_eq_some_head (by simp)] at moved

omit [DecidableEq α] in
theorem Represents.toHead (rep : s.Represents lists) {l l' : List α} (split : lists k = l ++ x :: l') :
    (s.toHead k x).Represents (update lists k (x :: l' ++ l)) :=
  rep.rotateTo split

theorem Represents.addTail (rep : s.Represents lists) (fresh : ∀ j, x ∉ lists j) :
    (s.addTail k x).Represents (update lists k (lists k ++ [x])) := by
  have single := rep.alone x fresh
  unfold Store.addTail
  split
  · next none =>
    rw [rep.heads, head?_eq_none_iff] at none
    rw [none, nil_append]
    refine rep.updateList (by simp [setHead]) (fun j ne => by simp [setHead, ne]) ?_ (by simp)
      (fun _ _ _ _ => rfl) (fun _ _ _ _ => rfl) ?_ ?_
    · exact single
    · intro j _ z inK
      obtain rfl := mem_singleton.mp inK
      exact fresh j
    · intro z _ others
      refine rep.alone z ?_
      intro j inJ
      by_cases same : j = k
      · subst same; simp [none] at inJ
      · exact others j same inJ
  · next y head =>
    obtain ⟨l, split⟩ := rep.head_some head
    have ring := rep.ring k
    have nodup := rep.nodup k
    have freshK := fresh k
    rw [split] at ring nodup freshK
    have yx : x ≠ y := fun same => freshK (same ▸ mem_cons_self ..)
    have inY : y ∈ lists k := split ▸ mem_cons_self ..
    have inLast : s.nodes.prev y ∈ lists k := (rep.ring k).prev_mem inY
    refine rep.updateList ?_ (fun j _ => rfl) ?_ ?_ ?_ ?_ ?_ ?_
    · simpa [split] using head
    · rw [split]
      exact ring.insert_head nodup freshK
    · rw [split, ← concat_eq_append]
      exact nodup.concat freshK
    · intro j ne z inJ
      refine Nodes.insert_next_of_ne yx ?_ (rep.other_ne ne inLast inJ)
      rintro rfl
      exact fresh j inJ
    · intro j ne z inJ
      refine Nodes.insert_prev_of_ne ?_ (rep.other_ne ne inY inJ)
      rintro rfl
      exact fresh j inJ
    · intro j ne z inK inJ
      rcases mem_append.mp inK with old | new
      · exact ne (rep.disjoint inJ old)
      · obtain rfl := mem_singleton.mp new
        exact fresh j inJ
    · intro z absent others
      simp only [mem_append, mem_singleton, not_or] at absent
      have zy : z ≠ y := fun same => absent.1 (same ▸ inY)
      have zl : z ≠ s.nodes.prev y := fun same => absent.1 (same ▸ inLast)
      rw [Nodes.insert_next_of_ne yx absent.2 zl, Nodes.insert_prev_of_ne absent.2 zy]
      refine rep.alone z ?_
      intro j inJ
      by_cases same : j = k
      · subst same; exact absent.1 inJ
      · exact others j same inJ

/-- Unlinking an element of list `k` takes it out of that list and leaves it
alone, provided the head pointer is moved off it. -/
theorem Represents.unlinkFrom (rep : s.Represents lists) {l l' : List α} (split : lists k = l ++ x :: l') :
    ({ s with nodes := s.nodes.unlink x }.setHead k (l ++ l').head?).Represents
      (update lists k (l ++ l')) := by
  have perm : ((x :: l') ++ l).Perm (lists k) := split ▸ perm_append_comm
  have ring : s.nodes.IsRing (x :: (l' ++ l)) := by
    have old := rep.ring k
    rw [split, Nodes.isRing_append_comm] at old
    exact old
  have nodup : (x :: (l' ++ l)).Nodup := perm.nodup_iff.mpr (rep.nodup k)
  have inX : x ∈ lists k := perm.subset (mem_cons_self ..)
  have inNext : s.nodes.next x ∈ lists k := (rep.ring k).next_mem inX
  have inPrev : s.nodes.prev x ∈ lists k := (rep.ring k).prev_mem inX
  have kept : ∀ z, z ∈ l ++ l' → z ∈ lists k := by
    intro z mem
    exact perm.subset (mem_cons_of_mem _ (perm_append_comm.subset mem))
  refine rep.updateList (by simp [setHead]) (fun j ne => by simp [setHead, ne]) ?_ ?_ ?_ ?_ ?_ ?_
  · exact Nodes.isRing_append_comm.mp (ring.unlink_head nodup)
  · exact perm_append_comm.nodup_iff.mp (nodup_cons.mp nodup).2
  · intro j ne z inJ
    exact Nodes.unlink_next_of_ne (rep.other_ne ne inX inJ) (rep.other_ne ne inPrev inJ)
  · intro j ne z inJ
    exact Nodes.unlink_prev_of_ne (rep.other_ne ne inX inJ) (rep.other_ne ne inNext inJ)
  · intro j ne z inK inJ
    exact ne (rep.disjoint inJ (kept z inK))
  · intro z absent others
    by_cases same : z = x
    · subst same
      exact Nodes.unlink_self
    · have outside : z ∉ lists k := by
        rw [split]
        simp only [mem_append, mem_cons, not_or] at absent ⊢
        exact ⟨absent.1, same, absent.2⟩
      have zn : z ≠ s.nodes.next x := fun eq => outside (eq ▸ inNext)
      have zp : z ≠ s.nodes.prev x := fun eq => outside (eq ▸ inPrev)
      simp only [setHead]
      rw [Nodes.unlink_next_of_ne same zp, Nodes.unlink_prev_of_ne same zn]
      refine rep.alone z ?_
      intro j inJ
      by_cases atK : j = k
      · subst atK; exact outside inJ
      · exact others j atK inJ

theorem Represents.remHead (rep : s.Represents lists) : (s.remHead k).Represents (update lists k (lists k).tail) := by
  unfold Store.remHead
  split
  · next none =>
    rw [rep.heads, head?_eq_none_iff] at none
    rw [none, tail_nil, ← none, update_eq_self]
    exact rep
  · next y head =>
    obtain ⟨l, split⟩ := rep.head_some head
    have ring := rep.ring k
    have nodup := rep.nodup k
    rw [split] at ring nodup
    have second := ring.next_head
    have taken := rep.unlinkFrom (show lists k = [] ++ y :: l from split)
    rw [split, tail_cons]
    cases l with
    | nil =>
      have single : s.nodes.next y = y := second
      have back : s.nodes.prev y = y := ring.2
      rw [Nodes.unlink_alone single back] at taken
      simpa [single] using taken
    | cons z l =>
      have moved : s.nodes.next y = z := second
      have apart : z ≠ y := by
        rintro rfl
        simp at nodup
      simpa [moved, apart] using taken

theorem Represents.remove (rep : s.Represents lists) (mem : x ∈ lists k) :
    (s.remove k x).Represents (update lists k ((lists k).erase x)) := by
  unfold Store.remove
  split
  · next head =>
    obtain ⟨l, split⟩ := rep.head_some head
    have taken := rep.remHead (k := k)
    simpa [split] using taken
  · next other =>
    obtain ⟨l, l', absent, split, erased⟩ := exists_erase_eq mem
    have taken := rep.unlinkFrom split
    rw [erased]
    have sameHead : (l ++ l').head? = s.head k := by
      cases l with
      | nil => exact absurd ((rep.heads k).trans (by simp [split])) other
      | cons y l => simp [rep.heads, split]
    have same : ({ s with nodes := s.nodes.unlink x }.setHead k (l ++ l').head? : Store κ α) =
        { s with nodes := s.nodes.unlink x } := by
      simp [setHead, sameHead]
    rwa [same] at taken

/-- A fresh node appended after an element of list `k`. -/
theorem Represents.append (rep : s.Represents lists) {y : α} {l l' : List α} (split : lists k = l ++ y :: l')
    (fresh : ∀ j, x ∉ lists j) :
    ({ s with nodes := s.nodes.append y x } : Store κ α).Represents
      (update lists k (l ++ y :: x :: l')) := by
  have ring : s.nodes.IsRing (y :: (l' ++ l)) := by
    have old := rep.ring k
    rw [split, Nodes.isRing_append_comm] at old
    exact old
  have perm : ((y :: l') ++ l).Perm (lists k) := split ▸ perm_append_comm
  have nodup : (y :: (l' ++ l)).Nodup := perm.nodup_iff.mpr (rep.nodup k)
  have inY : y ∈ lists k := perm.subset (mem_cons_self ..)
  have inNext : s.nodes.next y ∈ lists k := (rep.ring k).next_mem inY
  have freshRing : x ∉ y :: (l' ++ l) := fun mem => fresh k (perm.subset mem)
  have apart : x ≠ y := fun same => freshRing (same ▸ mem_cons_self ..)
  have permNew : (l ++ y :: x :: l').Perm (x :: lists k) := by
    have middle : ((l ++ [y]) ++ x :: l').Perm (x :: ((l ++ [y]) ++ l')) := perm_middle
    simpa [split] using middle
  refine rep.updateList ?_ (fun j _ => rfl) ?_ ?_ ?_ ?_ ?_ ?_
  · have old := rep.heads k
    rw [split] at old
    cases l <;> simpa using old
  · have grown := ring.append_head nodup freshRing
    exact Nodes.isRing_append_comm.mp (by simpa using grown)
  · rw [permNew.nodup_iff, nodup_cons]
    exact ⟨fresh k, rep.nodup k⟩
  · intro j ne z inJ
    refine Nodes.append_next_of_ne ?_ (rep.other_ne ne inY inJ)
    rintro rfl
    exact fresh j inJ
  · intro j ne z inJ
    refine Nodes.append_prev_of_ne apart ?_ (rep.other_ne ne inNext inJ)
    rintro rfl
    exact fresh j inJ
  · intro j ne z inK inJ
    rcases mem_cons.mp (permNew.subset inK) with same | old
    · subst same; exact fresh j inJ
    · exact ne (rep.disjoint inJ old)
  · intro z absent others
    have outside : z ≠ x ∧ z ∉ lists k := by
      rw [permNew.mem_iff, mem_cons, not_or] at absent
      exact absent
    have zy : z ≠ y := fun same => outside.2 (same ▸ inY)
    have zn : z ≠ s.nodes.next y := fun same => outside.2 (same ▸ inNext)
    rw [Nodes.append_next_of_ne outside.1 zy, Nodes.append_prev_of_ne apart outside.1 zn]
    refine rep.alone z ?_
    intro j inJ
    by_cases same : j = k
    · subst same; exact outside.2 inJ
    · exact others j same inJ

end Store

end Ring
