import Ecos.Memalloc.Status
import Ecos.Memalloc.SepmetaSafety

/-! The lookups of `sepmetaimpl.inl` with the pointers they follow and the signs of what they compare. -/

namespace Ecos

/-- Why a call does not come back. -/
inductive Lost
  | followedNull
  | unfinished
  deriving DecidableEq

namespace MempoolSepmeta

/-- `dq->memnext->mem - dq->mem`, where `memnext` may be NULL. -/
def followExtent (p : MempoolSepmeta) (dq : Memdq) : Except Lost Nat :=
  if p.memnext dq = .null then .error .followedNull else .ok (p.extent dq)

def lookFree (p : MempoolSepmeta) (size : Nat) : Nat → Memdq → Except Lost Memdq
  | 0, _ => .error .unfinished
  | fuel + 1, dq =>
    match p.followExtent dq with
    | .error lost => .error lost
    | .ok extent =>
      if signed extent < signed size then
        if p.next dq = .freehead then .ok .null else p.lookFree size fuel (p.next dq)
      else .ok dq

def lookAlloced (p : MempoolSepmeta) (mem : Nat) : Except Lost Memdq :=
  match p.findAllocedDq mem p.longest (p.next .allocedhead) with
  | none => .error .unfinished
  | some dq => .ok dq

/-- As `takeEnd`, where `alloced->next->mem - size` may wrap. -/
def takeEndWord (p : MempoolSepmeta) (size : Nat) (dq alloced : Memdq) : MempoolSepmeta :=
  let p := { p with freemetahead := p.next alloced }
  let p := p.setMemnext alloced (p.memnext dq)
  let p := p.setNext alloced (p.memnext dq)
  let p := p.setMemprev alloced dq
  let p := p.setPrev alloced (p.prev (p.next alloced))
  let p := p.setMem alloced (word (p.mem (p.next alloced) + 2 ^ 32 - size))
  let p := p.setMemnext dq alloced
  let p := p.setMemprev (p.memnext alloced) alloced
  p.linkAlloced alloced

def takeFromWord (p : MempoolSepmeta) (size : Nat) (dq : Memdq) : MempoolSepmeta × Nat :=
  if size = p.extent dq then
    let p := (p.takeWhole dq).linkAlloced dq
    ({ p with freemem := p.freemem - signed size }, p.mem dq)
  else if p.freemetahead = .null then (p, Ecos.null)
  else
    let alloced := p.freemetahead
    let p := (p.takeEndWord size dq alloced).linkAlloced alloced
    ({ p with freemem := p.freemem - signed size }, p.mem alloced)

/-- `try_alloc` as it runs on words and pointers that may be NULL. -/
def tryAllocWord (p : MempoolSepmeta) (size : Nat) : Except Lost (MempoolSepmeta × Nat) :=
  if p.bottom = Ecos.null ∨ p.metabase = Ecos.null then .ok (p, Ecos.null)
  else
    let size := p.roundsize size
    match p.lookFree size p.longest (p.next .freehead) with
    | .error lost => .error lost
    | .ok dq => if dq = .null then .ok (p, Ecos.null) else .ok (p.takeFromWord size dq)

/-- `free` as it runs on pointers that may be NULL. -/
def freeWord (p : MempoolSepmeta) (ptr size : Nat) : Except Lost (MempoolSepmeta × Bool) :=
  if ¬ (p.bottom ≤ ptr ∧ ptr ≤ p.top) then .ok (p, false)
  else
    match p.lookAlloced ptr with
    | .error lost => .error lost
    | .ok dq =>
      if dq = .null then .ok (p, false)
      else
        match p.followExtent dq with
        | .error lost => .error lost
        | .ok extent =>
          let size := if size = 0 then extent else p.roundsize size
          if extent ≠ size then .ok (p, false)
          else
            match (p.unlink dq).insertFreeBlock dq with
            | none => .error .unfinished
            | some p => .ok ({ p with freemem := p.freemem + signed size }, true)

end MempoolSepmeta

open Ring.Nodes (before after before_mem after_mem after_cons after_nil)
open Function Option Nat MempoolSepmeta List
open MempoolSepmeta (alignup aligndown roundsize)

theorem signed_lt_iff {n m : Nat} (below : n < 2 ^ 32) (small : m < 2 ^ 31) :
    signed n < signed m ↔ ¬ (m ≤ n ∧ n < 2 ^ 31) := by
  rw [signed_of_small (z := m) (by omega) (by omega)]
  by_cases large : n < 2 ^ 31
  · rw [signed_of_small (by omega) (by omega)]
    omega
  · rw [signed_of_large (by omega) (by omega)]
    omega

namespace MempoolSepmeta
variable {p p' : MempoolSepmeta} {S : Memdq → Prop} {d dq fdq alloced : Memdq} {l r blocks : List Block} {x y : Block}
  {unused : List Memdq} {k n s ptr fuel : Nat}

theorem extent_lt : p.extent d < 2 ^ 32 := mod_lt _ (by decide)

/-- What a change within the descriptors `S` of the mem list leaves alone. -/
structure Inside (S : Memdq → Prop) (p p' : MempoolSepmeta) : Prop where
  arena : p'.arena = p.arena
  closed : ∀ d, S d → S (p'.memnext d) ∧ S (p'.memprev d)
  off : ∀ d, ¬ S d → p'.memnext d = p.memnext d ∧ p'.mem d = p.mem d

theorem Inside.trans {q : MempoolSepmeta} (first : Inside S p p') (second : Inside S p' q) : Inside S p q where
  arena := second.arena.trans first.arena
  closed := second.closed
  off d outside := ⟨(second.off d outside).1.trans (first.off d outside).1,
    (second.off d outside).2.trans (first.off d outside).2⟩

section Inside
variable (closed : ∀ d, S d → S (p.memnext d) ∧ S (p.memprev d)) (inside : S dq)
include closed

theorem unlink_inside : Inside S p (p.unlink d) := ⟨rfl, closed, fun _ _ => ⟨rfl, rfl⟩⟩

include inside

theorem joinNext_inside : Inside S p (p.joinNext dq fdq).1 ∧ S (p.joinNext dq fdq).2 := by
  unfold joinNext
  by_cases behind : p.memnext dq = fdq
  · have insideF : S fdq := behind ▸ (closed dq inside).1
    have insideU := (closed dq inside).2
    rw [if_pos behind]
    refine ⟨⟨rfl, fun d at_d => ⟨?_, ?_⟩, fun d off => ⟨?_, ?_⟩⟩, insideF⟩
    · simp only [memnext, memprev, setMem, setMemprev, setMemnext, setNext, update_apply, if_true]
      split
      · exact insideF
      · exact (closed d at_d).1
    · simp only [memprev, setMem, setMemprev, setMemnext, setNext, update_apply]
      split
      · exact insideU
      · exact (closed d at_d).2
    · have apart : d ≠ p.memlinks.prev dq := fun same => off (same ▸ insideU)
      simp only [memnext, memprev, setMem, setMemprev, setMemnext, setNext, update_apply, if_true, if_neg apart]
    · have apart : d ≠ fdq := fun same => off (same ▸ insideF)
      exact update_of_ne apart _ _
  · rw [if_neg behind]
    exact ⟨⟨rfl, closed, fun _ _ => ⟨rfl, rfl⟩⟩, inside⟩

theorem joinPrev_inside : Inside S p (p.joinPrev dq) := by
  unfold joinPrev
  by_cases front : p.memprev dq = p.prev dq
  · have insideU : S (p.prev dq) := front ▸ (closed dq inside).2
    have insideV := (closed _ insideU).2
    rw [if_pos front]
    refine ⟨rfl, fun d at_d => ⟨?_, ?_⟩, fun d off => ⟨?_, ?_⟩⟩
    · simp only [memnext, memprev, prev, setMem, setMemprev, setMemnext, setNext, setPrev, update_apply, if_true]
      split
      · exact inside
      · exact (closed d at_d).1
    · simp only [memprev, prev, setMem, setMemprev, setMemnext, setNext, setPrev, update_apply]
      split
      · exact insideV
      · exact (closed d at_d).2
    · have apart : d ≠ p.memlinks.prev (p.links.prev dq) := fun same => off (same ▸ insideV)
      simp only [memnext, memprev, prev, setMem, setMemprev, setMemnext, setNext, setPrev, update_apply, if_true,
        if_neg apart]
    · have apart : d ≠ dq := fun same => off (same ▸ inside)
      exact update_of_ne apart _ _
  · rw [if_neg front]
    exact ⟨rfl, closed, fun _ _ => ⟨rfl, rfl⟩⟩

theorem insertFreeBlock_inside (done : p.insertFreeBlock dq = some p') : Inside S p p' := by
  obtain ⟨fdq, _, rfl⟩ := map_eq_some_iff.mp done
  have joined : Inside S p (p.joinNext dq fdq).1 ∧ _ := joinNext_inside closed inside
  exact joined.1.trans (joinPrev_inside joined.1.closed joined.2)

end Inside

theorem takeFrom_off (other : d ≠ dq) (other' : d ≠ p.freemetahead) :
    (p.takeFrom k dq).1.memnext d = p.memnext d ∧ (p.takeFrom k dq).1.mem d = p.mem d := by
  unfold takeFrom
  split
  · exact ⟨rfl, rfl⟩
  · split
    · exact ⟨rfl, rfl⟩
    · simp [takeEnd, linkAlloced, memnext, setNext, setPrev, setMemnext, setMemprev, setMem, other, other']

theorem takeFrom_arena : (p.takeFrom k dq).1.arena = p.arena := by
  unfold takeFrom
  split
  · rfl
  · split <;> rfl

theorem takeFromWord_eq (fits : k ≤ p.mem (p.memnext dq)) (below : p.mem (p.memnext dq) < 2 ^ 32)
    (apart : dq ≠ p.freemetahead) (small : k < 2 ^ 31) : p.takeFromWord k dq = p.takeFrom k dq := by
  have sign : signed k = k := signed_of_small (by omega) (by omega)
  have place : word (p.mem (p.memnext dq) + 2 ^ 32 - k) = p.mem (p.memnext dq) - k := by
    unfold word
    omega
  have same : p.takeEndWord k dq p.freemetahead = p.takeEnd k dq p.freemetahead := by
    simp only [memnext] at place
    simp [-reducePow, takeEndWord, takeEnd, memnext, next, setMemnext, setNext, setMemprev, setPrev, setMem,
      place, apart]
  simp only [takeFromWord, takeFrom, same, sign]

theorem lookFree_eq (closed : ∀ d, S d → p.memnext d ≠ .null ∧ (p.next d = .freehead ∨ S (p.next d)))
    (begins : S d) (small : k < 2 ^ 31) :
    p.lookFree k fuel d = match p.findFreeDq k fuel d with
      | none => .error .unfinished
      | some dq => .ok dq := by
  induction fuel generalizing d with
  | zero => rfl
  | succ fuel ih =>
    have here : p.followExtent d = .ok (p.extent d) := if_neg (closed d begins).1
    have sign : signed (p.extent d) < signed k ↔ ¬ p.fits k d = true := by
      rw [signed_lt_iff extent_lt small, fits, decide_eq_true_iff]
    simp only [lookFree, findFreeDq, here]
    by_cases fits : p.fits k d = true
    · rw [if_neg (by rw [sign]; exact not_not.mpr fits), if_pos fits]
    · rw [if_pos (sign.mpr fits), if_neg fits]
      by_cases last : p.next d = .freehead
      · rw [if_pos last, if_pos last]
      · rw [if_neg last, if_neg last]
        exact ih ((closed d begins).2.resolve_left last)

theorem findFreeDq_spec (closed : ∀ d, S d → p.next d = .freehead ∨ S (p.next d)) (begins : S d)
    (found : p.findFreeDq k fuel d = some dq) : dq = .null ∨ S dq ∧ p.fits k dq = true := by
  induction fuel generalizing d with
  | zero => cases found
  | succ fuel ih =>
    rw [findFreeDq] at found
    split at found
    · next fits =>
      obtain rfl := some.inj found
      exact .inr ⟨begins, fits⟩
    · split at found
      · exact .inl (some.inj found).symm
      · next more => exact ih ((closed d begins).resolve_left more) found

namespace Lists

theorem followExtent (lists : p.Lists (l ++ x :: r) unused) : p.followExtent x.dq = .ok x.size := by
  have inside : after .memend (r.map Block.dq) ≠ .null := by
    cases r with
    | nil => simp
    | cons y r => exact (lists.complete.dq_proper (x := y) (by simp)).1
  have around : p.memnext x.dq ≠ .null := by
    rw [memnext, lists.order.around.1]
    exact inside
  rw [MempoolSepmeta.followExtent, if_neg around, lists.extent]

theorem free_closed (lists : p.Lists blocks unused) : ∀ d, d ∈ dqs .free blocks →
    p.memnext d ≠ .null ∧ (p.next d = .freehead ∨ p.next d ∈ dqs .free blocks) := by
  intro d member
  obtain ⟨x, inside, free, rfl⟩ := mem_dqs.mp member
  obtain ⟨l, r, rfl⟩ := append_of_mem inside
  constructor
  · intro zero
    have follows := lists.followExtent
    rw [MempoolSepmeta.followExtent, if_pos zero] at follows
    cases follows
  · rw [next, (lists.free_around free).1]
    rcases after_free_cases r with head | ⟨z, later, freeZ, here⟩
    · exact .inl head
    · refine .inr (here ▸ mem_dqs.mpr ⟨z, ?_, freeZ, rfl⟩)
      simp [later]

theorem freemetahead_cases (lists : p.Lists blocks unused) : p.freemetahead = .null ∨ p.freemetahead ∈ unused := by
  have chain := lists.threads.unused
  cases head : p.freemetahead <;> simp only [head, Memdq.ref] at chain
  case null => exact .inl rfl
  all_goals
    obtain ⟨rest, rfl, _⟩ := chain.cons_of_some
    exact .inr (mem_cons_self ..)

theorem freemetahead_ne (lists : p.Lists blocks unused) (inside : d ∈ freeRing blocks) (some : d ≠ .null) :
    d ≠ p.freemetahead := by
  rcases lists.freemetahead_cases with null | listed
  · rw [null]
    exact some
  · exact lists.complete.free_unused inside listed

theorem findAllocedDq_absent (lists : p.Lists (l ++ r) unused) (nonempty : dqs .live r ≠ [])
    (absent : ∀ x ∈ r, x.use = .live → x.addr ≠ ptr) (enough : (dqs .live r).length ≤ fuel) :
    p.findAllocedDq ptr fuel (after .allocedhead (dqs .live r ++ [.memend])) = some .null := by
  induction r generalizing l fuel with
  | nil => exact absurd rfl nonempty
  | cons y r ih =>
    have regroup : l ++ y :: r = (l ++ [y]) ++ r := by simp
    have absent' : ∀ x ∈ r, x.use = .live → x.addr ≠ ptr := fun x member => absent x (mem_cons_of_mem y member)
    by_cases live : y.use = .live
    · rw [dqs_cons, if_pos live, length_cons] at enough
      obtain ⟨fuel, rfl⟩ : ∃ f, fuel = f + 1 := ⟨fuel - 1, by omega⟩
      have begins := lists.order.mems y (by simp)
      have behind : p.next y.dq = after .allocedhead (dqs .live r ++ [.memend]) := (lists.live_around live).1
      rw [dqs_cons, if_pos live, cons_append, after_cons, MempoolSepmeta.findAllocedDq, begins,
        if_neg (absent y (by simp) live), behind]
      by_cases last : dqs .live r = []
      · simp [last]
      · have notEnd : after .allocedhead (dqs .live r ++ [.memend]) ≠ .memend := by
          obtain ⟨e, rest, shape⟩ := exists_cons_of_ne_nil last
          have member : e ∈ dqs .live r := by simp [shape]
          obtain ⟨z, inside, _, rfl⟩ := mem_dqs.mp member
          rw [shape, cons_append, after_cons]
          exact (lists.complete.dq_proper (x := z) (by simp [inside])).2.2.2
        rw [if_neg notEnd]
        exact ih (regroup ▸ lists) last absent' (by omega)
    · rw [dqs_cons, if_neg live] at nonempty enough ⊢
      exact ih (regroup ▸ lists) nonempty absent' enough

end Lists

/-- What the heads of the lists hold, and where the arena lies. -/
structure Grounds (p : MempoolSepmeta) : Prop where
  heads : ∀ d, d = .allocedhead ∨ d = .freehead → p.memnext d = .null
  mem : p.mem .allocedhead = null
  below : p.top < 2 ^ 32
  room : p.bottom < p.top
  bottom : p.alignment ∣ p.bottom
  top : p.alignment ∣ p.top

theorem Grounds.kept (grounds : p.Grounds) (arena : p'.arena = p.arena)
    (off : ∀ d, d = .allocedhead ∨ d = .freehead → p'.memnext d = p.memnext d ∧ p'.mem d = p.mem d) : p'.Grounds := by
  simp only [MempoolSepmeta.arena, Prod.mk.injEq] at arena
  obtain ⟨bottom, top, alignment, -, -⟩ := arena
  refine ⟨fun d head => ?_, ?_, ?_, ?_, ?_, ?_⟩
  · rw [(off d head).1]
    exact grounds.heads d head
  · rw [(off _ (.inl rfl)).2]
    exact grounds.mem
  · rw [top]
    exact grounds.below
  · rw [bottom, top]
    exact grounds.room
  · rw [alignment, bottom]
    exact grounds.bottom
  · rw [alignment, top]
    exact grounds.top

end MempoolSepmeta

namespace SepmetaHeap
variable {h : SepmetaHeap} {e : SepmetaEvent} {l r blocks : List Block} {x y : Block} {free unused : List Memdq}
  {k n s ptr base size alignment metabase metasize : Nat}

/-- What an event does to the pool as it runs; where the call is lost nothing is said. -/
def serve (h : SepmetaHeap) : SepmetaEvent → SepmetaHeap
  | .tryAlloc size =>
    match h.pool.tryAllocWord size with
    | .error _ => h
    | .ok (pool, ptr) => { pool, live := if ptr = null then h.live else ptr :: h.live }
  | .free ptr size =>
    match h.pool.freeWord ptr size with
    | .error _ => h
    | .ok (pool, done) => { pool, live := if done then h.live.filter (· ≠ ptr) else h.live }

/-- `try_alloc` returns, and where no free block is large enough it declines. -/
def Answers (h : SepmetaHeap) (free : List Memdq) (n : Nat) : Prop :=
  ∃ q, h.pool.tryAllocWord n = .ok q ∧ ((∀ d ∈ free, h.pool.extent d < n) → q = (h.pool, null))

/-- `free` returns false and leaves the pool as it is. -/
def Refuses (h : SepmetaHeap) (ptr s : Nat) : Prop := h.pool.freeWord ptr s = .ok (h.pool, false)

/-- The pool is not in use, or it has a free block and rounding does not
overflow, or does where no descriptor is left. -/
def Answerable (h : SepmetaHeap) (n : Nat) : Prop :=
  (h.pool.bottom = null ∨ h.pool.metabase = null) ∨
    h.pool.next .freehead ≠ .freehead ∧ (n + h.pool.alignment ≤ 2 ^ 31 ∨ h.pool.freemetahead = .null)

/-- Some block is allocated, or the address is not that of `memend` with the
size that its neighbours give it, nor that of `allocedhead`. -/
def Refusable (h : SepmetaHeap) (ptr s : Nat) : Prop :=
  h.pool.next .allocedhead ≠ .memend ∨
    ¬ (ptr = h.pool.top ∧ (s = 0 ∨ h.pool.roundsize s = h.pool.extent .memend)) ∧ ¬ (ptr = null ∧ h.pool.bottom = null)

instance : Decidable (h.Answerable n) := inferInstanceAs (Decidable (_ ∨ _))

instance : Decidable (h.Refusable ptr s) := inferInstanceAs (Decidable (_ ∨ _))

/-- What callers may ask of the pool. -/
def Asks (h : SepmetaHeap) : SepmetaEvent → Prop
  | .tryAlloc n => 0 < n ∧ n < 2 ^ 31 ∧ h.Answerable n
  | .free ptr s => ptr ∈ h.live ∨ h.Refusable ptr s

instance : Decidable (h.Asks e) :=
  match e with
  | .tryAlloc _ => inferInstanceAs (Decidable (_ ∧ _ ∧ _))
  | .free _ _ => inferInstanceAs (Decidable (_ ∨ _))

theorem Inv.first_free (inv : Inv h blocks unused) (nonempty : h.pool.next .freehead ≠ .freehead) :
    h.pool.next .freehead ∈ dqs .free blocks := by
  have first : h.pool.next .freehead = after .freehead (dqs .free blocks) :=
    (Ring.Nodes.IsRing.between (l := []) inv.lists.threads.free).1
  rw [first] at nonempty ⊢
  have inside := after_mem (h := Memdq.freehead) (r := dqs .free blocks)
  exact (mem_cons.mp inside).resolve_left nonempty

section
variable (power : ∃ k ≤ 30, h.pool.alignment = 2 ^ k)
include power

theorem roundsize_lt (sane : s + h.pool.alignment ≤ 2 ^ 31) : h.pool.roundsize s < 2 ^ 31 := by
  obtain ⟨k, small, value⟩ := power
  rw [value] at sane
  have division := div_mul_le_self (s + 2 ^ k - 1) (2 ^ k)
  rw [roundsize, value, alignup_spec small (by omega)]
  omega

theorem roundsize_overflow (small : n < 2 ^ 31)
    (large : 2 ^ 31 < n + h.pool.alignment) : h.pool.roundsize n = 2 ^ 31 := by
  obtain ⟨k, le, value⟩ := power
  rw [value] at large
  have whole : 2 ^ (31 - k) * 2 ^ k = 2 ^ 31 := by
    rw [← pow_add]
    congr 1
    omega
  have unit : 2 ^ k ≤ 2 ^ 30 := Nat.pow_le_pow_right (by decide) le
  have quotient : (n + 2 ^ k - 1) / 2 ^ k = 2 ^ (31 - k) := by
    refine Nat.div_eq_of_lt_le ?_ ?_
    · rw [whole]
      omega
    · rw [Nat.succ_mul, whole]
      omega
  rw [roundsize, value, alignup_spec le (by omega), quotient, whole]

end

section
variable (inv : Inv h blocks unused)
include inv

theorem Inv.tryAllocWord (grounds : h.pool.Grounds) (ok : h.Ok (.tryAlloc s)) :
    ∃ q, h.pool.tryAlloc s = some q ∧ h.pool.tryAllocWord s = .ok q ∧ q.1.Grounds ∧ q.1.arena = h.pool.arena := by
  obtain ⟨q, done⟩ := isSome_iff_exists.mp (inv.tryAlloc ok).2
  refine ⟨q, done, ?_⟩
  obtain ⟨_, sane, nonempty⟩ := ok
  unfold MempoolSepmeta.tryAlloc at done
  unfold MempoolSepmeta.tryAllocWord
  by_cases dead : h.pool.bottom = null ∨ h.pool.metabase = null
  · rw [if_pos dead] at done ⊢
    obtain rfl := some.inj done
    exact ⟨rfl, grounds, rfl⟩
  rw [if_neg dead] at done ⊢
  have closed := inv.lists.free_closed
  have begins := inv.first_free nonempty
  have small := roundsize_lt inv.power sane
  simp only [lookFree_eq closed begins small]
  cases found : h.pool.findFreeDq (h.pool.roundsize s) h.pool.longest (h.pool.next .freehead) with
  | none => simp [found] at done
  | some dq =>
    simp only [found] at done ⊢
    by_cases absent : dq = .null
    · rw [if_pos absent] at done ⊢
      obtain rfl := some.inj done
      exact ⟨rfl, grounds, rfl⟩
    rw [if_neg absent] at done ⊢
    obtain rfl := some.inj done
    obtain ⟨listed, fits⟩ :=
      (findFreeDq_spec (fun d member => (closed d member).2) begins found).resolve_left absent
    have apart := inv.lists.freemetahead_ne (mem_cons_of_mem _ listed) absent
    obtain ⟨x, inside, _, rfl⟩ := mem_dqs.mp listed
    obtain ⟨l, r, rfl⟩ := append_of_mem inside
    have proper := inv.lists.complete.dq_proper inside
    have within := inv.lists.order.within inside
    have ends : h.pool.mem (h.pool.memnext x.dq) = x.addr + x.size := inv.lists.order.mem_next
    have below := grounds.below
    rw [inv.lists.fits_iff, decide_eq_true_iff] at fits
    refine ⟨congrArg _ (takeFromWord_eq (by omega) (by omega) apart small), ?_,
      takeFrom_arena⟩
    refine grounds.kept takeFrom_arena fun d head => takeFrom_off ?_ ?_
    · rcases head with rfl | rfl
      · exact proper.2.1.symm
      · exact proper.2.2.1.symm
    · rcases inv.lists.freemetahead_cases with null | listed
      · rw [null]
        rcases head with rfl | rfl <;> simp
      · have free := inv.lists.complete.proper (mem_append_right _ listed)
        rcases head with rfl | rfl
        · exact free.2.1.symm
        · exact free.2.2.1.symm

theorem Inv.tryAllocWord_overflow (alive : ¬ (h.pool.bottom = null ∨ h.pool.metabase = null))
    (nonempty : h.pool.next .freehead ≠ .freehead) (small : n < 2 ^ 31) (large : 2 ^ 31 < n + h.pool.alignment) :
    ∃ pool ptr, h.pool.tryAllocWord n = .ok (pool, ptr) ∧
      ((h.pool.freemetahead = .null ∧ pool = h.pool ∧ ptr = null) ∨
        h.pool.freemetahead ≠ .null ∧ pool.freemem = h.pool.freemem + 2 ^ 31) := by
  have size := roundsize_overflow inv.power small large
  obtain ⟨x, inside, _, here⟩ := mem_dqs.mp (inv.first_free nonempty)
  obtain ⟨l, r, rfl⟩ := append_of_mem inside
  have within := inv.lists.order.within inside
  have bound := inv.lists.small
  have proper := (inv.lists.complete.dq_proper inside).1
  have stays : ¬ signed x.size < signed (2 ^ 31 : Nat) := by
    rw [signed_of_small (by omega) (by omega), signed_of_large (by decide) (by decide)]
    omega
  obtain ⟨fuel, value⟩ : ∃ f, h.pool.longest = f + 1 := ⟨h.pool.descriptors + 3, rfl⟩
  have look : h.pool.lookFree (2 ^ 31) h.pool.longest x.dq = .ok x.dq := by
    rw [value, lookFree, inv.lists.followExtent]
    exact if_neg stays
  have result : h.pool.tryAllocWord n = .ok (h.pool.takeFromWord (2 ^ 31) x.dq) := by
    unfold MempoolSepmeta.tryAllocWord
    simp only [if_neg alive, size, ← here, look, if_neg proper]
  have other : ¬ 2 ^ 31 = h.pool.extent x.dq := by
    rw [inv.lists.extent]
    omega
  unfold takeFromWord at result
  rw [if_neg other] at result
  by_cases spent : h.pool.freemetahead = .null
  · rw [if_pos spent] at result
    exact ⟨_, _, result, .inl ⟨spent, rfl, rfl⟩⟩
  · rw [if_neg spent] at result
    refine ⟨_, _, result, .inr ⟨spent, ?_⟩⟩
    have sign : signed (2 ^ 31 : Nat) = -2 ^ 31 := by decide
    simp only [sign]
    exact sub_neg_eq_add _ _

theorem Inv.smaller (grounds : h.pool.Grounds) (large : 2 ^ 31 < n + h.pool.alignment) :
    ∀ d ∈ dqs .free blocks, h.pool.extent d < n := by
  intro d member
  obtain ⟨x, inside, _, rfl⟩ := mem_dqs.mp member
  rw [inv.sizes inside]
  have within := inv.lists.order.within inside
  have bound := inv.lists.small
  obtain ⟨k, le, value⟩ := inv.power
  have whole : h.pool.alignment ∣ 2 ^ 31 := value ▸ pow_dvd_pow 2 (by omega)
  have units := dvd_sub whole (dvd_sub grounds.top grounds.bottom)
  have short := le_of_dvd (by omega) units
  omega

theorem Inv.live_of_block (member : x ∈ blocks) (live : x.use = .live) : x.addr ∈ h.live := by
  refine inv.owns.mem_iff.mpr (mem_map.mpr ⟨x.toPiece, Heap.mem_usedPieces.mpr ⟨?_, ?_⟩, rfl⟩)
  · exact mem_map_of_mem member
  · simp [live]

theorem Inv.next_allocedhead : h.pool.next .allocedhead = after .allocedhead (dqs .live blocks ++ [.memend]) :=
  (Ring.Nodes.IsRing.between (l := []) inv.lists.threads.alloced).1

theorem Inv.lookAlloced_empty (grounds : h.pool.Grounds) (empty : dqs .live blocks = []) : h.pool.lookAlloced ptr =
      .ok (if ptr = h.pool.top then .memend else if ptr = null then .allocedhead else .null) := by
  have ring := inv.lists.threads.alloced
  rw [allocedRing, empty] at ring
  have first : h.pool.next .allocedhead = .memend := ring.1.1
  have second : h.pool.next .memend = .allocedhead := ring.2.1
  have ends := inv.lists.order.ends
  have value : h.pool.longest = h.pool.descriptors + 2 + 1 + 1 := rfl
  have sought : h.pool.findAllocedDq ptr h.pool.longest .memend =
      some (if ptr = h.pool.top then .memend else if ptr = null then .allocedhead else .null) := by
    rw [value]
    simp only [findAllocedDq, ends, second, grounds.mem, first, eq_comm (b := ptr)]
    by_cases top : ptr = h.pool.top
    · rw [if_pos top, if_pos top]
    · by_cases zero : ptr = null
      · subst zero
        simp [top]
      · simp [top, zero]
  unfold lookAlloced
  rw [first, sought]

theorem refuses_iff (grounds : h.pool.Grounds) (absent : ptr ∉ h.live) : h.Refuses ptr s ↔ h.Refusable ptr s := by
  have head := inv.next_allocedhead
  have room := grounds.room
  by_cases outside : ¬ (h.pool.bottom ≤ ptr ∧ ptr ≤ h.pool.top)
  · refine iff_of_true (if_pos outside) (.inr ⟨?_, ?_⟩)
    · rintro ⟨rfl, _⟩
      omega
    · rintro ⟨rfl, zero⟩
      omega
  by_cases empty : dqs .live blocks = []
  · have look : h.pool.lookAlloced ptr = _ := inv.lookAlloced_empty grounds empty
    rw [empty] at head
    have refuses : h.Refuses ptr s ↔ _ = _ := Iff.rfl
    unfold freeWord at refuses
    rw [if_neg outside, look] at refuses
    rw [refuses]
    by_cases top : ptr = h.pool.top
    · have follows : h.pool.followExtent .memend = .ok (h.pool.extent .memend) := by
        refine if_neg ?_
        have inside := inv.lists.order.ring.next_mem (mem_cons_self ..)
        rcases mem_cons.mp inside with same | listed
        · rw [memnext, same]
          simp
        · exact (inv.lists.complete.proper (mem_append_left _ listed)).1
      simp only [if_pos top, follows, reduceCtorEq, if_false]
      have notNull : ¬ (ptr = null ∧ h.pool.bottom = null) := by
        rintro ⟨zero, _⟩
        have : null = 0 := rfl
        omega
      by_cases matching : s = 0 ∨ h.pool.roundsize s = h.pool.extent .memend
      · have exact : h.pool.extent .memend = if s = 0 then h.pool.extent .memend else h.pool.roundsize s := by
          split
          · rfl
          · next notZero => exact (matching.resolve_left notZero).symm
        rw [if_neg (not_not.mpr exact)]
        refine iff_of_false ?_ ?_
        · cases (h.pool.unlink .memend).insertFreeBlock .memend <;> simp
        · rintro (some | ⟨other, _⟩)
          · exact some head
          · exact other ⟨top, matching⟩
      · have other : h.pool.extent .memend ≠ if s = 0 then h.pool.extent .memend else h.pool.roundsize s := by
          split
          · next zero => exact absurd (.inl zero) matching
          · exact fun same => matching (.inr same.symm)
        rw [if_pos other]
        exact iff_of_true rfl (.inr ⟨fun both => matching both.2, notNull⟩)
    · by_cases zero : ptr = null
      · have follows : h.pool.followExtent .allocedhead = .error .followedNull := if_pos (grounds.heads _ (.inl rfl))
        simp only [if_neg top, if_pos zero, follows, reduceCtorEq, if_false, false_iff]
        have bottom : h.pool.bottom = null := by
          have : null = 0 := rfl
          omega
        rintro (some | ⟨_, other⟩)
        · exact some head
        · exact other ⟨zero, bottom⟩
      · simp only [if_neg top, if_neg zero, if_true, true_iff]
        exact .inr ⟨fun both => top both.1, fun both => zero both.1⟩
  · have look : h.pool.lookAlloced ptr = .ok .null := by
      have enough : (dqs .live blocks).length ≤ h.pool.longest := by
        have bound := inv.lists.length_le
        have short := Lists.dqs_length_le .live blocks
        unfold longest
        omega
      unfold lookAlloced
      rw [head, Lists.findAllocedDq_absent (l := []) inv.lists empty ?_ enough]
      rintro x member live rfl
      exact absent (inv.live_of_block member live)
    refine iff_of_true ?_ (.inl ?_)
    · unfold Refuses freeWord
      rw [if_neg outside, look]
      rfl
    · obtain ⟨d, rest, shape⟩ := exists_cons_of_ne_nil empty
      obtain ⟨z, inside, _, rfl⟩ := mem_dqs.mp (show d ∈ dqs .live blocks by simp [shape])
      rw [head, shape, cons_append, after_cons]
      exact (inv.lists.complete.dq_proper inside).2.2.2

theorem Inv.freeWord (grounds : h.pool.Grounds) (held : ptr ∈ h.live) :
    ∃ q, h.pool.free ptr s = some q ∧ h.pool.freeWord ptr s = .ok q ∧ q.1.Grounds ∧ q.1.arena = h.pool.arena := by
  obtain ⟨q, done⟩ := isSome_iff_exists.mp (inv.free (s := s) held).2
  refine ⟨q, done, ?_⟩
  obtain ⟨l, x, r, rfl, live, rfl⟩ := inv.held held
  have within := inv.lists.order.within (x := x) (by simp)
  have small := inv.lists.small
  have found := inv.lists.findAllocedDq_head live
  have look : h.pool.lookAlloced x.addr = .ok x.dq := by simp only [lookAlloced, found]
  have proper := inv.lists.complete.dq_proper (x := x) (by simp)
  have extent := inv.lists.extent
  unfold MempoolSepmeta.free at done
  unfold freeWord
  simp only [found, look, inv.lists.followExtent, extent, if_neg proper.1] at done ⊢
  split at done
  · next outside =>
    obtain rfl := some.inj done
    exact ⟨if_pos outside, grounds, rfl⟩
  next inside =>
  rw [if_neg inside]
  generalize size : (if s = 0 then x.size else h.pool.roundsize s) = k at done ⊢
  by_cases wrong : x.size ≠ k
  · rw [if_pos wrong] at done ⊢
    obtain rfl := some.inj done
    exact ⟨rfl, grounds, rfl⟩
  rw [if_neg wrong] at done ⊢
  obtain ⟨pool, inserted, rfl⟩ := map_eq_some_iff.mp done
  have sign : signed k = k := signed_of_small (by omega) (by omega)
  simp only [inserted, sign]
  have ring := inv.lists.order.ring
  have unlinked := unlink_inside (d := x.dq)
    (S := fun d => d ∈ Memdq.memend :: (l ++ x :: r).map Block.dq)
    (fun d member => ⟨ring.next_mem member, ring.prev_mem member⟩)
  have whole := unlinked.trans (insertFreeBlock_inside unlinked.closed (by simp) inserted)
  refine ⟨trivial, grounds.kept whole.arena fun d head => whole.off d fun member => ?_, whole.arena⟩
  rcases mem_cons.mp member with same | listed
  · rcases head with rfl | rfl <;> cases same
  · have apart := inv.lists.complete.proper (mem_append_left _ listed)
    rcases head with rfl | rfl
    · exact apart.2.1 rfl
    · exact apart.2.2.1 rfl

theorem Inv.serve_eq (grounds : h.pool.Grounds) (asks : h.Asks e) : h.serve e = h ∨
    h.Ok e ∧ h.serve e = h.act e ∧ (h.act e).pool.Grounds ∧ (h.act e).pool.arena = h.pool.arena := by
  cases e with
  | tryAlloc n =>
    obtain ⟨positive, small, answerable⟩ := asks
    have declined : h.pool.tryAllocWord n = .ok (h.pool, null) → h.serve (.tryAlloc n) = h := by
      intro done
      simp [SepmetaHeap.serve, done]
    by_cases dead : h.pool.bottom = null ∨ h.pool.metabase = null
    · exact .inl (declined (if_pos dead))
    obtain ⟨nonempty, fits⟩ := answerable.resolve_left dead
    by_cases sane : n + h.pool.alignment ≤ 2 ^ 31
    · have ok : h.Ok (.tryAlloc n) := ⟨positive, sane, nonempty⟩
      obtain ⟨q, runs, done, grounds', arena⟩ := inv.tryAllocWord grounds ok
      refine .inr ⟨ok, ?_, ?_, ?_⟩
      · simp [SepmetaHeap.serve, act, runs, done]
      · simpa [act, runs] using grounds'
      · simpa [act, runs] using arena
    · obtain ⟨pool, ptr, done, cases⟩ := inv.tryAllocWord_overflow dead nonempty small (by omega)
      rcases cases with ⟨_, rfl, rfl⟩ | ⟨some, _⟩
      · exact .inl (declined done)
      · exact absurd (fits.resolve_left sane) some
  | free ptr s =>
    by_cases held : ptr ∈ h.live
    · obtain ⟨q, runs, done, grounds', arena⟩ := inv.freeWord (s := s) grounds held
      refine .inr ⟨held, ?_, ?_, ?_⟩
      · simp [SepmetaHeap.serve, act, runs, done]
      · simpa [act, runs] using grounds'
      · simpa [act, runs] using arena
    · have refuses := (refuses_iff inv grounds held).mpr (asks.resolve_left held)
      have done : h.pool.freeWord ptr s = .ok (h.pool, false) := refuses
      exact .inl (by simp [SepmetaHeap.serve, done])

theorem Inv.serve (grounds : h.pool.Grounds) (asks : h.Asks e) :
    (∃ blocks' unused', Inv (h.serve e) blocks' unused') ∧ (h.serve e).pool.Grounds := by
  rcases inv.serve_eq grounds asks with same | ⟨ok, same, grounds', _⟩
  · rw [same]
    exact ⟨⟨_, _, inv⟩, grounds⟩
  · rw [same]
    refine ⟨?_, grounds'⟩
    cases e with
    | tryAlloc n => exact (inv.tryAlloc ok).1
    | free ptr s => exact (inv.free ok).1

end

theorem first_grounds (accepts : SepmetaAccepts base size alignment metasize) :
    (MempoolSepmeta.construct base size alignment metabase metasize).Grounds := by
  obtain ⟨room, _⟩ := arena_spec accepts
  obtain ⟨⟨k, le, rfl⟩, short, inside, _, _⟩ := accepts
  have top : aligndown (2 ^ k) (base + size) = (base + size) / 2 ^ k * 2 ^ k := by
    unfold aligndown
    rw [and_negative (by omega), word, mod_eq_of_lt inside]
  have bottom : (2 ^ k) ∣ alignup (2 ^ k) base := by
    unfold alignup
    rw [and_negative (by omega)]
    exact dvd_mul_left _ _
  refine ⟨?_, rfl, ?_, room, bottom, ?_⟩
  · rintro d (rfl | rfl) <;> rfl
  · show aligndown (2 ^ k) (base + size) < 2 ^ 32
    have := div_mul_le_self (base + size) (2 ^ k)
    omega
  · show (2 ^ k) ∣ aligndown (2 ^ k) (base + size)
    rw [top]
    exact dvd_mul_left _ _

/-- The runs of one pool that serves whatever can be answered. -/
def served (base size alignment metabase metasize : Nat) : Machine SepmetaHeap :=
  Machine.guided (· = ⟨MempoolSepmeta.construct base size alignment metabase metasize, []⟩) Asks serve

end SepmetaHeap

end Ecos
