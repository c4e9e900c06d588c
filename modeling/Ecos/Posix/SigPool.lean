import Mathlib.Data.Fintype.Card
import Ecos.Lib.Chain
import Ecos.Lib.TailRing
import Ecos.Posix.Sigset

namespace Ecos.Posix.Signal
open Function List

/-- `siginfo_t`. -/
structure Siginfo where
  siSigno : Fin 32
  siCode : Int
  siValue : Int
  deriving DecidableEq, Repr

/-- The array `siginfo` of `SIGQUEUE_MAX` objects, the free list, and the `pending` pointers of `sigstate`. -/
structure Pool (n : Nat) where
  next : Fin n → Option (Fin n)
  si : Fin n → Siginfo
  pending : Fin 32 → Option (Fin n)
  siginfoNext : Option (Fin n)

namespace Pool
variable {n : Nat} (p : Pool n)

def chainFree (x : Fin n) : Pool n :=
  { p with next := Function.update p.next x p.siginfoNext, siginfoNext := some x }

/-- The pool as `cyg_posix_signal_start` leaves it. -/
def start (n : Nat) : Pool n :=
  (List.finRange n).foldl chainFree ⟨fun _ => none, fun _ => ⟨0, 0, 0⟩, fun _ => none, none⟩

/-- The queueing in `cyg_sigqueue`; `none` when no object is free. -/
def enqueue (signo : Fin 32) (info : Siginfo) : Option (Fin n × Pool n) :=
  match p.siginfoNext with
  | none => none
  | some x =>
    let p := { p with siginfoNext := p.next x, si := Function.update p.si x info }
    match p.pending signo with
    | none => some (x, { p with
        next := Function.update p.next x (some x)
        pending := Function.update p.pending signo (some x) })
    | some y => some (x, { p with
        next := Function.update (Function.update p.next x (p.next y)) y (some x)
        pending := Function.update p.pending signo (some x) })

/-- The first object is unlinked and returned to the free list. A null link, which is not there in a
circular list, would not be followed. -/
def dequeue (signo : Fin 32) : Option (Fin n) × Pool n :=
  match p.pending signo with
  | none => (none, p)
  | some y =>
    match p.next y with
    | none => (none, p)
    | some x =>
      let p := if y = x then { p with pending := Function.update p.pending signo none }
        else { p with next := Function.update p.next y (p.next x) }
      (some x, p.chainFree x)

/-- `while (ss->pending != NULL)` of `sigaction`, for as many turns as there are objects. -/
def discard (signo : Fin 32) : Nat → Pool n → Pool n
  | 0, p => p
  | turns + 1, p => if p.pending signo = none then p else discard signo turns (p.dequeue signo).2

end Pool

variable {n : Nat} {p : Pool n} {free rest : List (Fin n)} {queue : Fin 32 → List (Fin n)} {x y : Fin n} {signo u : Fin 32}
  {info : Siginfo}

/-- Every object is in one place: the free list, or the circular list of one signal. -/
structure Holds (p : Pool n) (free : List (Fin n)) (queue : Fin 32 → List (Fin n)) : Prop where
  chain : Chain p.next p.siginfoNext free
  ring : ∀ signo, TailRing p.next (p.pending signo) (queue signo)
  freeOnce : free.Nodup
  once : ∀ signo, (queue signo).Nodup
  apart : ∀ signo, ∀ x ∈ queue signo, x ∉ free
  single : ∀ signo u x, x ∈ queue signo → x ∈ queue u → signo = u
  all : ∀ x, x ∈ free ∨ ∃ signo, x ∈ queue signo

theorem Holds.pending_none (holds : Holds p free queue) : p.pending signo = none ↔ queue signo = [] := by
  rw [← (holds.ring signo).1, getLast?_eq_none_iff]

theorem Holds.siginfoNext_none (holds : Holds p free queue) : p.siginfoNext = none ↔ free = [] := by
  cases free with
  | nil => exact ⟨fun _ => rfl, fun _ => holds.chain⟩
  | cons x free => simp [holds.chain.1]

theorem chain_chainFree (chain : Chain p.next p.siginfoNext free) (fresh : x ∉ free) :
    Chain (p.chainFree x).next (p.chainFree x).siginfoNext (x :: free) := by
  refine ⟨rfl, ?_⟩
  simp only [Pool.chainFree, update_self]
  exact chain.congr fun y mem => update_of_ne (ne_of_mem_of_not_mem mem fresh) _ _

theorem holds_start : ∃ free, Holds (Pool.start n) free fun _ => [] := by
  have grows : ∀ (l : List (Fin n)) (p : Pool n) (free : List (Fin n)), (∀ s, p.pending s = none) →
      Chain p.next p.siginfoNext free → (l ++ free).Nodup → (∀ x, x ∈ l ∨ x ∈ free) →
      ∃ free, Holds (l.foldl Pool.chainFree p) free fun _ => [] := by
    intro l
    induction l with
    | nil =>
      intro p free none chain nodup all
      refine ⟨free, chain, fun s => ?_, nodup, fun _ => .nil, fun _ _ mem => absurd mem not_mem_nil,
        fun _ _ _ mem => absurd mem not_mem_nil, fun x => .inl ((all x).resolve_left not_mem_nil)⟩
      rw [foldl_nil, none s]
      exact .nil
    | cons x l ih =>
      intro p free none chain nodup all
      have fresh : x ∉ free := fun mem => (nodup_cons.mp nodup).1 (mem_append_right l mem)
      refine ih (p.chainFree x) (x :: free) none (chain_chainFree chain fresh) ?_ fun y => ?_
      · exact (perm_middle.nodup_iff).mpr nodup
      · rcases all y with mem | mem
        · rcases mem_cons.mp mem with rfl | mem
          · exact .inr (mem_cons_self ..)
          · exact .inl mem
        · exact .inr (mem_cons_of_mem x mem)
  exact grows _ _ [] (fun _ => rfl) rfl (by simpa using nodup_finRange n) fun x => .inl (mem_finRange x)

theorem Holds.enqueue (holds : Holds p (x :: free) queue) (signo : Fin 32) (info : Siginfo) : ∃ p', p.enqueue signo info = some (x, p') ∧
    Holds p' free (update queue signo (queue signo ++ [x])) ∧ p'.si = update p.si x info := by
  obtain ⟨first, chain⟩ := holds.chain
  have fresh : ∀ u, x ∉ queue u := fun u mem => holds.apart u x mem (mem_cons_self ..)
  obtain ⟨notFree, freeOnce⟩ := nodup_cons.mp holds.freeOnce
  -- the links may change at `x` and at the last object of the list only
  have moved : ∀ next' : Fin n → Option (Fin n), (∀ z, z ≠ x → z ∉ queue signo → next' z = p.next z) →
      TailRing next' (some x) (queue signo ++ [x]) →
      Holds ⟨next', update p.si x info, update p.pending signo (some x), p.next x⟩ free
        (update queue signo (queue signo ++ [x])) := by
    intro next' same ring
    refine ⟨chain.congr fun z mem => same z (ne_of_mem_of_not_mem mem notFree) fun inside =>
      holds.apart signo z inside (mem_cons_of_mem x mem), fun u => ?_, freeOnce, fun u => ?_, fun u z inside => ?_,
      fun u v z => ?_, fun z => ?_⟩
    · by_cases here : u = signo
      · subst here
        simpa using ring
      · simp only [update_of_ne here]
        exact (holds.ring u).congr fun z mem => same z (ne_of_mem_of_not_mem mem (fresh u)) fun inside =>
          here (holds.single u signo z mem inside)
    · by_cases here : u = signo
      · subst here
        simpa using nodup_append_comm.mp (nodup_cons.mpr ⟨fresh u, holds.once u⟩)
      · simpa only [update_of_ne here] using holds.once u
    · by_cases here : u = signo
      · subst here
        simp only [update_self, mem_append, mem_singleton] at inside
        rcases inside with inside | rfl
        · exact fun mem => holds.apart u z inside (mem_cons_of_mem x mem)
        · exact notFree
      · rw [update_of_ne here] at inside
        exact fun mem => holds.apart u z inside (mem_cons_of_mem x mem)
    · have := holds.single u v z
      have := fresh u
      have := fresh v
      grind
    · rcases holds.all z with mem | ⟨u, mem⟩
      · rcases mem_cons.mp mem with rfl | mem
        · exact .inr ⟨signo, by simp⟩
        · exact .inl mem
      · refine .inr ⟨u, ?_⟩
        by_cases here : u = signo
        · subst here
          simp [mem]
        · rwa [update_of_ne here]
  have ring := holds.ring signo
  simp only [Pool.enqueue, first]
  cases last : p.pending signo with
  | none =>
    have empty : queue signo = [] := holds.pending_none.mp last
    refine ⟨_, rfl, moved _ (fun z others _ => update_of_ne others _ _) ?_, rfl⟩
    rw [empty]
    exact .single x
  | some y =>
    rw [last] at ring
    refine ⟨_, rfl, moved _ (fun z others outside => ?_) (ring.enqueue (holds.once signo) (fresh signo)), rfl⟩
    rw [update_of_ne (ne_of_mem_of_not_mem ring.mem outside).symm, update_of_ne others]

theorem Holds.dequeue (holds : Holds p free queue) (list : queue signo = x :: rest) :
    (p.dequeue signo).1 = some x ∧ Holds (p.dequeue signo).2 (x :: free) (update queue signo rest) ∧
      (p.dequeue signo).2.si = p.si := by
  have ring := holds.ring signo
  have nodup := holds.once signo
  have inside : x ∈ queue signo := by simp [list]
  have fresh := holds.apart signo x inside
  -- the links may change at `x` and at the last object of the list only
  have moved : ∀ (next' : Fin n → Option (Fin n)) tail, (∀ z, z ∉ queue signo → next' z = p.next z) →
      TailRing (update next' x p.siginfoNext) tail rest →
      Holds (Pool.chainFree ⟨next', p.si, update p.pending signo tail, p.siginfoNext⟩ x) (x :: free)
        (update queue signo rest) := by
    intro next' tail same after
    have out : ∀ z ∈ free, z ∉ queue signo := fun z mem inside => holds.apart signo z inside mem
    have unlinked : Chain next' p.siginfoNext free := holds.chain.congr fun z mem => same z (out z mem)
    refine ⟨chain_chainFree (p := ⟨next', p.si, update p.pending signo tail, p.siginfoNext⟩) unlinked fresh,
      fun u => ?_, nodup_cons.mpr ⟨fresh, holds.freeOnce⟩, fun u => ?_, fun u z inside => ?_, fun u v z => ?_,
      fun z => ?_⟩
    · by_cases here : u = signo
      · subst here
        simpa [Pool.chainFree] using after
      · simp only [Pool.chainFree, update_of_ne here]
        refine (holds.ring u).congr fun z mem => ?_
        have other : z ∉ queue signo := fun inside => here (holds.single u signo z mem inside)
        rw [update_of_ne (ne_of_mem_of_not_mem inside other).symm, same z other]
    · by_cases here : u = signo
      · subst here
        simpa using (nodup_cons.mp (list ▸ nodup)).2
      · simpa only [update_of_ne here] using holds.once u
    · have := holds.apart u z
      have := holds.single u signo z
      grind
    · have := holds.single u v z
      grind
    · have := holds.all z
      simp only [update_apply]
      grind
  obtain ⟨y, last⟩ : ∃ y, p.pending signo = some y := by
    refine Option.ne_none_iff_exists'.mp fun empty => ?_
    simp [holds.pending_none.mp empty] at list
  rw [last, list] at ring
  rw [list] at nodup
  obtain ⟨x', rest', same, first⟩ := ring.first
  obtain ⟨rfl, rfl⟩ := cons.inj same
  simp only [Pool.dequeue, last, first]
  by_cases only : y = x
  · subst only
    obtain rfl := ring.last_eq_first nodup
    refine ⟨trivial, ?_, by simp [Pool.chainFree]⟩
    simpa only [if_true] using moved p.next none (fun _ _ => rfl) .nil
  · refine ⟨trivial, ?_, by simp [only, Pool.chainFree]⟩
    have short := ring.dequeue nodup (Ne.symm only)
    have := moved (update p.next y (p.next x)) (some y)
      (fun z outside => update_of_ne (ne_of_mem_of_not_mem (list ▸ ring.mem) outside).symm _ _)
      (short.congr fun z mem => update_of_ne (ne_of_mem_of_not_mem mem (nodup_cons.mp nodup).1) _ _)
    simpa only [only, if_false, ← last, update_eq_self] using this

theorem Holds.discard (holds : Holds p free queue) {turns : Nat} (enough : (queue signo).length ≤ turns) :
    ∃ free, Holds (p.discard signo turns) free (update queue signo []) ∧ (p.discard signo turns).si = p.si := by
  induction turns generalizing p free queue with
  | zero =>
    have empty : queue signo = [] := by simpa using enough
    exact ⟨free, by rwa [← empty, update_eq_self], rfl⟩
  | succ turns ih =>
    cases list : queue signo with
    | nil =>
      have none := holds.pending_none.mpr list
      simp only [Pool.discard, none, if_true]
      exact ⟨free, by rwa [← list, update_eq_self], trivial⟩
    | cons x rest =>
      have some : p.pending signo ≠ none := fun empty => by simp [holds.pending_none.mp empty] at list
      obtain ⟨-, taken, same⟩ := holds.dequeue list
      obtain ⟨free', after, same'⟩ := ih taken (by simpa [list] using enough)
      simp only [Pool.discard, some, if_false]
      exact ⟨free', by simpa using after, same'.trans same⟩

theorem Holds.length_le (holds : Holds p free queue) (signo : Fin 32) : (queue signo).length ≤ n := by
  simpa using Nodup.length_le_card (holds.once signo)

end Ecos.Posix.Signal
