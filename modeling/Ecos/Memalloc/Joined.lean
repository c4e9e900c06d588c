import Ecos.Memalloc.MvarSafety

namespace Ecos

/-- `struct pooldesc`; the pool is named by its place in the list of heaps. -/
structure Pooldesc where
  startaddr : Nat
  endaddr : Nat
  pool : Nat
  deriving DecidableEq

/-- Two pointers to bytes and one to the pool. -/
def sizeofPooldesc : Nat := 12

/-- `Cyg_Mempool_Joined` over variable block pools. The array `pools` lies in
the allocation at `table`, which was carved from one of the heaps. -/
structure MempoolJoined where
  heaps : List Heap
  table : Nat
  pools : List Pooldesc

namespace MempoolJoined

/-- `get_status` of a pool with the flags for the base and the size of the arena. -/
def arenaStatus (p : MempoolVariable) : Nat × Nat := (p.obase, p.top - p.bottom)

def findPoolForPtr (pools : List Pooldesc) (ptr : Nat) : Option Nat :=
  (pools.find? fun d => d.startaddr ≤ ptr ∧ ptr < d.endaddr).map Pooldesc.pool

/-- The loop over the pools: the first that has the memory gives it. Returned
are the heaps after it, the place of the pool and the pointer. -/
def tryPools (size : Nat) : List Heap → Option (List Heap × Nat × Nat)
  | [] => some ([], 0, null)
  | h :: heaps =>
    match h.pool.tryAlloc size with
    | none => none
    | some (_, ptr) =>
      if ptr ≠ null then some (h.act (.tryAlloc size) :: heaps, 0, ptr)
      else (tryPools size heaps).map fun (heaps, i, ptr) => (h.act (.tryAlloc size) :: heaps, i + 1, ptr)

/-- The entry of the table for the heap at place `i`. -/
def describe (i : Nat) (h : Heap) : Pooldesc :=
  let (arenabase, arenasize) := arenaStatus h.pool
  { startaddr := arenabase, endaddr := word (arenabase + arenasize), pool := i }

/-- The constructor: the table comes from the first heap that has room for it. -/
def construct (heaps : List Heap) : Option MempoolJoined :=
  match tryPools (heaps.length * sizeofPooldesc) heaps with
  | none => none
  | some (heaps, _, table) => if table = null then none else some { heaps, table, pools := heaps.mapIdx describe }

/-- An event of the joined heap; without a pool for the pointer the source
calls through a null pointer, and nothing further is modelled. -/
def act (j : MempoolJoined) : HeapEvent → MempoolJoined
  | .tryAlloc size =>
    match tryPools size j.heaps with
    | none => j
    | some (heaps, _, _) => { j with heaps }
  | .free ptr size =>
    match findPoolForPtr j.pools ptr with
    | none => j
    | some i => { j with heaps := j.heaps.modify i (·.act (.free ptr size)) }
  | .resizeAlloc ptr newsize =>
    match findPoolForPtr j.pools ptr with
    | none => j
    | some i => { j with heaps := j.heaps.modify i (·.act (.resizeAlloc ptr newsize)) }
  | .store ptr addr value =>
    { j with heaps := j.heaps.map fun h => if ptr ∈ h.live.map Prod.fst then h.act (.store ptr addr value) else h }

/-- What callers do: they use what they were given, which the table is not. -/
def Ok (j : MempoolJoined) : HeapEvent → Prop
  | .tryAlloc size => ∀ h ∈ j.heaps, h.Sane size
  | e => Heap.target e ≠ some j.table ∧ ∃ h ∈ j.heaps, h.Ok e ∧ h.NoWrap e

end MempoolJoined

/-- What a pool is constructed with. -/
structure Arena where
  head : Nat
  base : Nat
  size : Nat
  align : Nat

namespace Arena

def Accepted (a : Arena) : Prop := Accepts a.head a.base a.size a.align

/-- Two arenas that share no byte. -/
def Disjoint (a b : Arena) : Prop := a.base + a.size ≤ b.base ∨ b.base + b.size ≤ a.base

def alignment (a : Arena) : Nat := MempoolVariable.enlarge sizeofMemdq a.align

/-- The alignment costs so little at the bottom that the recorded range of the
arena reaches beyond the pointer into a smallest block at its top. -/
def Slim (a : Arena) : Prop :=
  MempoolVariable.addr2memdq a.alignment a.base + sizeofMemdq < a.base + a.alignment

instance (a : Arena) : Decidable a.Slim := inferInstanceAs (Decidable (_ < _))

def heap (m : Memory) (a : Arena) : Heap := ⟨MempoolVariable.construct m a.head a.base a.size a.align, []⟩

end Arena

open List Option Nat Heap
open MempoolVariable (roundup alloc2memdq)
variable {g : Geometry} {a b : Arena} {arenas : List Arena} {h h' : Heap} {heaps heaps' : List Heap} {e :
  HeapEvent} {j : MempoolJoined} {pieces : List Piece} {m : Memory} {i k s ptr : Nat}

/-- A pool of the arena in good order. -/
def Arena.Runs (a : Arena) (h : Heap) : Prop := ∃ (accepted : a.Accepted) (pieces : List Piece),
  Heap.Inv (Accepts.geometry accepted) h pieces

theorem Arena.Runs.step (runs : a.Runs h) (ok : h.Ok e) (noWrap : h.NoWrap e) : a.Runs (h.act e) := by
  obtain ⟨accepted, pieces, inv⟩ := runs
  obtain ⟨pieces', inv', _⟩ := inv.step ok noWrap
  exact ⟨accepted, pieces', inv'⟩

theorem Arena.runs_heap (accepted : a.Accepted) : a.Runs (a.heap m) :=
  ⟨accepted, _, first_inv accepted⟩

/-- The entry of the table that the constructor makes for an arena. -/
def Arena.entry (a : Arena) (i : Nat) : Pooldesc where
  startaddr := a.base
  endaddr := a.base + (MempoolVariable.arenaTop a.alignment a.base a.size - MempoolVariable.addr2memdq a.alignment a.base)
  pool := i

theorem Arena.Runs.describe (runs : a.Runs h) : MempoolJoined.describe i h = a.entry i := by
  obtain ⟨accepted, pieces, inv⟩ := runs
  have low := (Accepts.geometry accepted).low
  have bounded := (Accepts.geometry accepted).bounded
  have ordered : (Accepts.geometry accepted).bottom < (Accepts.geometry accepted).top := Accepts.ordered accepted
  have exact : word ((Accepts.geometry accepted).base +
      ((Accepts.geometry accepted).top - (Accepts.geometry accepted).bottom)) =
      (Accepts.geometry accepted).base + ((Accepts.geometry accepted).top - (Accepts.geometry accepted).bottom) :=
    mod_eq_of_lt (by omega)
  unfold MempoolJoined.describe MempoolJoined.arenaStatus
  rw [inv.here.obase, inv.here.top, inv.here.bottom]
  simp only [exact]
  rfl

theorem tryPools_spec (runs : ∀ h ∈ heaps, ∃ a : Arena, a.Runs h) (sane : ∀ h ∈ heaps, h.Sane s) :
    ∃ heaps' i ptr, MempoolJoined.tryPools s heaps = some (heaps', i, ptr) ∧
      ((ptr = null ∧ heaps' = heaps) ∨ (ptr ≠ null ∧ heaps' = heaps.modify i (·.act (.tryAlloc s)) ∧
        ∃ h : Heap, heaps[i]? = some h ∧ (h.act (.tryAlloc s)).live = (ptr, s) :: h.live)) := by
  induction heaps with
  | nil => exact ⟨[], 0, null, rfl, .inl ⟨rfl, rfl⟩⟩
  | cons h heaps ih =>
    obtain ⟨a, accepted, pieces, inv⟩ := runs h (mem_cons_self ..)
    obtain ⟨_, _, _, ⟨pool, ptr⟩, result, _, same⟩ := inv.tryAlloc (sane h (mem_cons_self ..))
    by_cases found : ptr = null
    · obtain ⟨heaps', i, ptr', rest, moved⟩ := ih (fun h member => runs h (mem_cons_of_mem _ member))
        fun h member => sane h (mem_cons_of_mem _ member)
      have unchanged : h.act (.tryAlloc s) = h := by
        simp only [act, result, found, if_true]
        rw [show pool = h.pool from same found]
      refine ⟨h :: heaps', i + 1, ptr', by simp [MempoolJoined.tryPools, result, found, rest, unchanged], ?_⟩
      rcases moved with ⟨none, rfl⟩ | ⟨nonnull, rfl, owner⟩
      · exact .inl ⟨none, rfl⟩
      · exact .inr ⟨nonnull, by simp, by simpa using owner⟩
    · refine ⟨h.act (.tryAlloc s) :: heaps, 0, ptr, by simp [MempoolJoined.tryPools, result, found],
      .inr ⟨found, ?_, ?_⟩⟩
      · simp
      · exact ⟨h, rfl, by simp [act, result, found]⟩

section Route
variable (runs : a.Runs h) (member : ptr ∈ h.live.map Prod.fst)
include runs member

theorem Arena.Runs.inside : a.base ≤ ptr ∧ ptr < a.base + a.size := by
  obtain ⟨accepted, pieces, inv⟩ := runs
  obtain ⟨l, x, r, rfl, _, rfl⟩ := inv.held member
  have within := inv.holds.tiles.within (x := x) (by simp)
  have room := alignment_le inv.holds.tiles inv.holds.grid (x := x) (by simp)
  have low : a.base ≤ (Accepts.geometry accepted).bottom := (Accepts.geometry accepted).low
  have high : (Accepts.geometry accepted).top ≤ a.base + a.size := Accepts.inside accepted
  have larger : sizeofMemdq < x.size := by
    obtain ⟨_, _, power⟩ := (Accepts.geometry accepted).power
    obtain ⟨k, _, large, _, value⟩ := Accepts.alignment_spec accepted
    have big : 2 ^ 4 ≤ 2 ^ k := Nat.pow_le_pow_right (by decide) large
    have same : (Accepts.geometry accepted).alignment = 2 ^ k := value
    simp only [sizeofMemdq]
    omega
  omega

theorem Arena.Runs.recorded_of_slim (slim : a.Slim) : ptr < (a.entry i).endaddr := by
  obtain ⟨accepted, pieces, inv⟩ := runs
  obtain ⟨l, x, r, rfl, _, rfl⟩ := inv.held member
  have within := inv.holds.tiles.within (x := x) (by simp)
  have room := alignment_le inv.holds.tiles inv.holds.grid (x := x) (by simp)
  have close : (Accepts.geometry accepted).bottom + sizeofMemdq < a.base + (Accepts.geometry accepted).alignment := slim
  show x.addr + sizeofMemdq < a.base + ((Accepts.geometry accepted).top - (Accepts.geometry accepted).bottom)
  omega

theorem Arena.Runs.recorded_of_last {table : Nat} (held : table ∈ h.live.map Prod.fst)
    (last : alloc2memdq table + h.pool.mem.size (alloc2memdq table) = h.pool.top)
    (other : ptr ≠ table) : ptr < (a.entry i).endaddr := by
  obtain ⟨accepted, pieces, inv⟩ := runs
  obtain ⟨l, x, r, split, _, rfl⟩ := inv.held member
  obtain ⟨l', y, r', split', _, rfl⟩ := inv.held held
  have inX : x ∈ pieces := split ▸ by simp
  have inY : y ∈ pieces := split' ▸ by simp
  have header : alloc2memdq (y.addr + sizeofMemdq) = y.addr := Nat.add_sub_cancel ..
  rw [header, inv.holds.sizes y inY, inv.here.top] at last
  have withinX := inv.holds.tiles.within inX
  have roomX := alignment_le inv.holds.tiles inv.holds.grid inX
  have roomY := alignment_le inv.holds.tiles inv.holds.grid inY
  have header' := (Accepts.geometry accepted).header
  have near : (Accepts.geometry accepted).bottom < a.base + (Accepts.geometry accepted).alignment :=
    (Accepts.geometry accepted).near
  show x.addr + sizeofMemdq < a.base + ((Accepts.geometry accepted).top - (Accepts.geometry accepted).bottom)
  rcases inv.holds.tiles.apart inX inY with same | before | after
  · exact absurd (congrArg (fun z => Piece.addr z + sizeofMemdq) same) other
  · omega
  · omega

end Route

theorem Arena.Runs.endaddr_le (runs : a.Runs h) : (a.entry i).endaddr ≤ a.base + a.size := by
  obtain ⟨accepted, _⟩ := runs
  have low : a.base ≤ (Accepts.geometry accepted).bottom := (Accepts.geometry accepted).low
  have high : (Accepts.geometry accepted).top ≤ a.base + a.size := Accepts.inside accepted
  show a.base + ((Accepts.geometry accepted).top - (Accepts.geometry accepted).bottom) ≤ a.base + a.size
  omega

theorem find?_of_first {α : Type*} {l : List α} {p : α → Bool} {x : α} (here : l[i]? = some x) (holds : p x)
    (before : ∀ (n : Nat) (y : α), n < i → l[n]? = some y → ¬ p y) : l.find? p = some x := by
  obtain ⟨bound, value⟩ := List.getElem?_eq_some_iff.mp here
  refine find?_eq_some_iff_getElem.mpr ⟨holds, i, bound, value, ?_⟩
  intro n earlier
  simpa using before n _ earlier (getElem?_eq_getElem (earlier.trans bound))

namespace MempoolJoined

/-- The pools are in good order, the table names their arenas, and the
allocation that holds the table is the last block of the pool at place `k`. -/
structure Inv (arenas : List Arena) (k : Nat) (j : MempoolJoined) : Prop where
  length : j.heaps.length = arenas.length
  runs : ∀ (i : Nat) (a : Arena) (h : Heap), arenas[i]? = some a → j.heaps[i]? = some h → a.Runs h
  pools : j.pools = arenas.mapIdx fun i a => a.entry i
  table : ∃ h : Heap, j.heaps[k]? = some h ∧ j.table ∈ h.live.map Prod.fst ∧
    MempoolVariable.alloc2memdq j.table + h.pool.mem.size (MempoolVariable.alloc2memdq j.table) = h.pool.top

/-- Every pool but the one that holds the table loses little at the bottom. -/
def Slim (arenas : List Arena) (k : Nat) : Prop := ∀ (i : Nat) (a : Arena), arenas[i]? = some a → i ≠ k → a.Slim

theorem Inv.exists_arena (inv : Inv arenas k j) (here : j.heaps[i]? = some h) : ∃ a, arenas[i]? = some a := by
  have bound : i < j.heaps.length := (List.getElem?_eq_some_iff.mp here).1
  exact ⟨_, getElem?_eq_getElem (inv.length ▸ bound)⟩

theorem Inv.route (inv : Inv arenas k j) (disjoint : arenas.Pairwise Arena.Disjoint) (slim : Slim arenas k)
    (here : j.heaps[i]? = some h) (member : ptr ∈ h.live.map Prod.fst) (other : ptr ≠ j.table) :
    findPoolForPtr j.pools ptr = some i := by
  obtain ⟨a, atI⟩ := inv.exists_arena here
  have runs := inv.runs i a h atI here
  have recorded : ptr < (a.entry i).endaddr := by
    by_cases same : i = k
    · subst same
      obtain ⟨h', atK, held, last⟩ := inv.table
      obtain rfl : h = h' := some.inj (here.symm.trans atK)
      exact runs.recorded_of_last member held last other
    · exact runs.recorded_of_slim member (slim i a atI same)
  have inside := runs.inside member
  have found : j.pools.find? (fun d => d.startaddr ≤ ptr ∧ ptr < d.endaddr) = some (a.entry i) := by
    rw [inv.pools]
    refine find?_of_first (i := i) ?_ ?_ ?_
    · rw [getElem?_mapIdx, atI]
      rfl
    · simpa using ⟨inside.1, recorded⟩
    · intro n d before atN
      rw [getElem?_mapIdx] at atN
      obtain ⟨b, atB, rfl⟩ := map_eq_some_iff.mp atN
      have bound : n < j.heaps.length := inv.length ▸ (List.getElem?_eq_some_iff.mp atB).1
      have limit := (inv.runs n b _ atB (getElem?_eq_getElem bound)).endaddr_le (i := n)
      obtain ⟨boundB, valueB⟩ := List.getElem?_eq_some_iff.mp atB
      obtain ⟨boundA, valueA⟩ := List.getElem?_eq_some_iff.mp atI
      have apart := pairwise_iff_getElem.mp disjoint n i boundB boundA before
      rw [valueA, valueB] at apart
      have start : (b.entry n).startaddr = b.base := rfl
      simp only [Arena.Disjoint] at apart
      simp only [decide_eq_true_eq]
      omega
  unfold findPoolForPtr
  rw [found]
  rfl

theorem table_kept {table : Nat} (runs : a.Runs h) (ok : h.Ok e) (noWrap : h.NoWrap e)
    (other : Heap.target e ≠ some table) (held : table ∈ h.live.map Prod.fst)
    (last : alloc2memdq table + h.pool.mem.size (alloc2memdq table) = h.pool.top) :
    table ∈ (h.act e).live.map Prod.fst ∧ alloc2memdq table +
      (h.act e).pool.mem.size (alloc2memdq table) = (h.act e).pool.top := by
  obtain ⟨accepted, pieces, inv⟩ := runs
  obtain ⟨l, x, r, rfl, live, pointer⟩ := inv.held held
  obtain ⟨pieces', inv', untouched⟩ := inv.step ok noWrap
  have room := header_le inv.holds.tiles inv.holds.grid (x := x) (by simp)
  have header : alloc2memdq table = x.addr := by
    rw [pointer]
    exact Nat.add_sub_cancel ..
  refine ⟨?_, ?_⟩
  · cases e with
    | tryAlloc s =>
      simp only [Heap.act]
      split
      · exact held
      · split
        · exact held
        · exact mem_cons_of_mem _ held
    | free ptr s =>
      have apart : table ≠ ptr := fun same => other (by simp [target, same])
      simp only [Heap.act]
      split
      · exact held
      · split
        · obtain ⟨entry, inside, rfl⟩ := mem_map.mp held
          exact mem_map_of_mem (mem_filter.mpr ⟨inside, by simpa using apart⟩)
        · exact held
    | resizeAlloc ptr s =>
      have apart : table ≠ ptr := fun same => other (by simp [target, same])
      simp only [Heap.act]
      split
      · exact held
      · split
        · exact held
        · obtain ⟨entry, inside, rfl⟩ := mem_map.mp held
          refine mem_map.mpr ⟨entry, mem_map.mpr ⟨entry, inside, if_neg apart⟩, rfl⟩
    | store => exact held
  · have same : (h.act e).pool.mem.size x.addr = h.pool.mem.size x.addr := by
      refine untouched x (by simp) live (pointer ▸ other) (x.addr + 8) (by omega) ?_
      simp only [sizeofMemdq] at room
      omega
    rw [header] at last ⊢
    rw [same, inv'.here.top, ← inv.here.top]
    exact last

section
variable (inv : Inv arenas k j)
include inv

theorem Inv.update (length : heaps.length = j.heaps.length)
    (moved : ∀ (i : Nat) (h : Heap), j.heaps[i]? = some h → heaps[i]? = some h ∨
      ∃ e, h.Ok e ∧ h.NoWrap e ∧ Heap.target e ≠ some j.table ∧ heaps[i]? = some (h.act e)) :
    Inv arenas k { j with heaps } where
  length := length.trans inv.length
  runs := by
    intro i a h atA atH
    obtain ⟨h₀, old⟩ : ∃ h₀, j.heaps[i]? = some h₀ :=
      ⟨_, List.getElem?_eq_getElem (length ▸ (List.getElem?_eq_some_iff.mp atH).1)⟩
    have runs := inv.runs i a h₀ atA old
    rcases moved i h₀ old with same | ⟨e, ok, noWrap, _, new⟩
    · obtain rfl : h₀ = h := some.inj (same.symm.trans atH)
      exact runs
    · obtain rfl : h₀.act e = h := some.inj (new.symm.trans atH)
      exact runs.step ok noWrap
  pools := inv.pools
  table := by
    obtain ⟨h, atK, held, last⟩ := inv.table
    obtain ⟨a, atA⟩ := inv.exists_arena atK
    rcases moved k h atK with same | ⟨e, ok, noWrap, other, new⟩
    · exact ⟨h, same, held, last⟩
    · exact ⟨h.act e, new, table_kept (inv.runs k a h atA atK) ok noWrap other held last⟩

theorem Inv.modify (here : j.heaps[i]? = some h) (ok : h.Ok e) (noWrap : h.NoWrap e)
    (other : Heap.target e ≠ some j.table) : Inv arenas k { j with heaps := j.heaps.modify i (·.act e) } := by
  refine inv.update (length_modify ..) ?_
  intro n h₀ old
  rw [getElem?_modify]
  by_cases same : i = n
  · subst same
    obtain rfl : h = h₀ := some.inj (here.symm.trans old)
    exact .inr ⟨e, ok, noWrap, other, by simp [here]⟩
  · exact .inl (by simp [same, old])

theorem Inv.step (disjoint : arenas.Pairwise Arena.Disjoint) (slim : Slim arenas k)
    (ok : j.Ok e) : Inv arenas k (j.act e) := by
  have route : ∀ (i : Nat) (h : Heap) (ptr : Nat), j.heaps[i]? = some h → ptr ∈ h.live.map Prod.fst →
      some ptr ≠ some j.table → findPoolForPtr j.pools ptr = some i := fun i h ptr here member other =>
    inv.route disjoint slim here member fun same => other (congrArg some same)
  cases e with
  | tryAlloc s =>
    have runs : ∀ h ∈ j.heaps, ∃ a : Arena, a.Runs h := by
      intro h member
      obtain ⟨i, here⟩ := mem_iff_getElem?.mp member
      obtain ⟨a, atA⟩ := inv.exists_arena here
      exact ⟨a, inv.runs i a h atA here⟩
    obtain ⟨heaps, i, ptr, result, moved⟩ := tryPools_spec runs ok
    simp only [act, result]
    rcases moved with ⟨_, rfl⟩ | ⟨_, rfl, h, here, _⟩
    · exact inv
    · exact inv.modify here (ok h (mem_of_getElem? here)) trivial (by simp [target])
  | free ptr s =>
    obtain ⟨other, h, member, okH, noWrap⟩ := ok
    obtain ⟨i, here⟩ := mem_iff_getElem?.mp member
    simp only [act, route i h ptr here okH.2 other]
    exact inv.modify here okH noWrap other
  | resizeAlloc ptr s =>
    obtain ⟨other, h, member, okH, noWrap⟩ := ok
    obtain ⟨i, here⟩ := mem_iff_getElem?.mp member
    simp only [act, route i h ptr here okH.2 other]
    exact inv.modify here okH noWrap other
  | store ptr addr v =>
    obtain ⟨other, h, member, okH, noWrap⟩ := ok
    obtain ⟨i, here⟩ := mem_iff_getElem?.mp member
    have held : ptr ∈ h.live.map Prod.fst := by
      obtain ⟨_, entry, inside, rfl, _⟩ := okH
      exact mem_map_of_mem inside
    refine inv.update (length_map ..) ?_
    intro n h₀ old
    rw [getElem?_map, old]
    by_cases owner : ptr ∈ h₀.live.map Prod.fst
    · have same : i = n := some.inj ((route i h ptr here held other).symm.trans (route n h₀ ptr old owner other))
      subst same
      obtain rfl : h = h₀ := some.inj (here.symm.trans old)
      exact .inr ⟨_, okH, noWrap, other, by simp only [map_some, if_pos owner]⟩
    · exact .inl (by simp only [map_some, if_neg owner])

theorem Inv.runs_mem (member : h ∈ j.heaps) : ∃ a : Arena, a.Runs h := by
  obtain ⟨i, here⟩ := mem_iff_getElem?.mp member
  obtain ⟨a, atA⟩ := inv.exists_arena here
  exact ⟨a, inv.runs i a h atA here⟩

end

end MempoolJoined

theorem Heap.Inv.first_alloc {x : Piece} (inv : Heap.Inv g h [x]) (sane : h.Sane s)
    (live : (h.act (.tryAlloc s)).live = (ptr, s) :: h.live) : alloc2memdq ptr +
      (h.act (.tryAlloc s)).pool.mem.size (alloc2memdq ptr) = (h.act (.tryAlloc s)).pool.top := by
  have whole : x.addr + x.size = g.top := inv.holds.tiles.2.2 ▸ by rw [inv.holds.tiles.1]
  have sane' := (sane_iff inv.here).mp sane
  rcases inv.holds.tryAlloc inv.here sane' rfl with ⟨_, fails⟩ | ⟨l, y, r, m', split, free, large, _, takes, holds, _⟩
  · have none : (h.act (.tryAlloc s)).live = h.live := by simp [act, fails]
    rw [none] at live
    exact absurd (congrArg List.length live) (by simp)
  · obtain ⟨rfl, rfl, rfl⟩ : l = [] ∧ y = x ∧ r = [] := by
      cases l with
      | nil =>
        simp only [nil_append, cons.injEq] at split
        exact ⟨rfl, split.1.symm, split.2.symm⟩
      | cons z l => simp at split
    generalize roundup g.alignment s = n at *
    have placed : y.addr + (y.size - n) + sizeofMemdq ≠ null := by simp [sizeofMemdq, null]
    have state : h.act (.tryAlloc s) = ⟨{ h.pool with mem := m', freemem := h.pool.freemem - n },
        (y.addr + (y.size - n) + sizeofMemdq, s) :: h.live⟩ := by
      simp [act, takes, placed]
    rw [state] at live ⊢
    obtain rfl : y.addr + (y.size - n) + sizeofMemdq = ptr := by
      simp only [cons.injEq, Prod.mk.injEq] at live
      exact live.1.1
    have header : alloc2memdq (y.addr + (y.size - n) + sizeofMemdq) = y.addr + (y.size - n) :=
      Nat.add_sub_cancel ..
    have member : (⟨y.addr + (y.size - n), n, .live⟩ : Piece) ∈ [] ++ carve n y ++ [] := by
      refine (mem_usedPieces.mp ?_).1
      rw [usedPieces_carve free]
      simp
    have size := holds.sizes _ member
    simp only [header] at size ⊢
    rw [size, inv.here.top]
    omega

namespace MempoolJoined

/-- The runs of a joined heap over new pools in the arenas. -/
def runs (m : Memory) (arenas : List Arena) : Machine MempoolJoined :=
  Machine.guided (fun j => construct (arenas.map (Arena.heap m)) = some j) Ok act

/-- The place of the pool that the table is taken from. -/
def tableHome (m : Memory) (arenas : List Arena) : Nat :=
  ((tryPools (arenas.length * sizeofPooldesc) (arenas.map (Arena.heap m))).map (·.2.1)).getD 0

theorem first_inv (accepted : ∀ a ∈ arenas, a.Accepted) (few : arenas.length ≤ 255)
    (built : construct (arenas.map (Arena.heap m)) = some j) : Inv arenas (tableHome m arenas) j := by
  have runs : ∀ h ∈ arenas.map (Arena.heap m), ∃ a : Arena, a.Runs h := by
    intro h member
    obtain ⟨a, inside, rfl⟩ := mem_map.mp member
    exact ⟨a, Arena.runs_heap (accepted a inside)⟩
  have sane : ∀ h ∈ arenas.map (Arena.heap m), h.Sane (arenas.length * sizeofPooldesc) := by
    intro h member
    obtain ⟨a, inside, rfl⟩ := mem_map.mp member
    have inv := Heap.first_inv (m := m) (accepted a inside)
    refine (sane_iff inv.here).mpr ?_
    obtain ⟨k, small, value⟩ := (Accepts.geometry (accepted a inside)).power
    have bound : 2 ^ k ≤ 2 ^ 30 := Nat.pow_le_pow_right (by decide) small
    unfold Geometry.Sane
    rw [value]
    simp only [sizeofPooldesc, sizeofMemdq]
    omega
  obtain ⟨heaps', k, table, result, moved⟩ := tryPools_spec runs sane
  have home : tableHome m arenas = k := by
    unfold tableHome
    rw [result]
    rfl
  have shape : construct (arenas.map (Arena.heap m)) =
      if table = null then none else some { heaps := heaps', table, pools := heaps'.mapIdx describe } := by
    unfold construct
    rw [length_map, result]
  rw [shape] at built
  rcases moved with ⟨none, _⟩ | ⟨nonnull, rfl, h, here, live⟩
  · simp [none] at built
  · rw [if_neg nonnull] at built
    obtain rfl := some.inj built
    have each : ∀ (i : Nat) (a : Arena) (h : Heap), arenas[i]? = some a →
        ((arenas.map (Arena.heap m)).modify k (·.act (.tryAlloc (arenas.length * sizeofPooldesc))))[i]? = some h →
        a.Runs h := by
      intro i a h atA atH
      have first := Arena.runs_heap (m := m) (accepted a (mem_of_getElem? atA))
      rw [getElem?_modify, getElem?_map, atA] at atH
      by_cases same : k = i
      · obtain rfl : (a.heap m).act (.tryAlloc (arenas.length * sizeofPooldesc)) = h := by simpa [same] using atH
        exact first.step (sane _ (mem_map_of_mem (mem_of_getElem? atA))) trivial
      · obtain rfl : a.heap m = h := by simpa [same] using atH
        exact first
    refine ⟨by simp, each, ?_, ?_⟩
    · refine ext_getElem? fun i => ?_
      rw [getElem?_mapIdx, getElem?_mapIdx]
      cases atA : arenas[i]? with
      | none =>
        have outside := getElem?_eq_none_iff.mp atA
        rw [getElem?_eq_none_iff.mpr (by simpa using outside)]
        rfl
      | some a =>
        have bound := (List.getElem?_eq_some_iff.mp atA).1
        obtain ⟨h', atH⟩ : ∃ h', ((arenas.map (Arena.heap m)).modify k
            (·.act (.tryAlloc (arenas.length * sizeofPooldesc))))[i]? = some h' :=
          ⟨_, getElem?_eq_getElem (by simpa using bound)⟩
        rw [atH]
        exact congrArg some (each i a h' atA atH).describe
    · rw [home]
      refine ⟨h.act (.tryAlloc (arenas.length * sizeofPooldesc)), ?_, ?_, ?_⟩
      · rw [getElem?_modify, here]
        simp
      · rw [live]
        simp
      · rw [getElem?_map] at here
        obtain ⟨a, atA, rfl⟩ := map_eq_some_iff.mp here
        have first := first_inv (m := m) (accepted a (mem_of_getElem? atA))
        exact Inv.first_alloc first (sane _ (mem_map_of_mem (mem_of_getElem? atA))) live

theorem reach_inv (accepted : ∀ a ∈ arenas, a.Accepted) (disjoint : arenas.Pairwise Arena.Disjoint)
    (few : arenas.length ≤ 255) (slim : Slim arenas (tableHome m arenas)) (reach : (runs m arenas).Reach j) :
    Inv arenas (tableHome m arenas) j :=
  reach.kept (fun _ built => first_inv accepted few built) fun _ _ inv ok => inv.step disjoint slim ok

theorem Inv.same_place {n : Nat} (inv : Inv arenas k j) (disjoint : arenas.Pairwise Arena.Disjoint)
    (here : j.heaps[i]? = some h) (member : ptr ∈ h.live.map Prod.fst) (there : j.heaps[n]? = some h')
    (member' : ptr ∈ h'.live.map Prod.fst) : i = n := by
  obtain ⟨a, atA⟩ := inv.exists_arena here
  obtain ⟨b, atB⟩ := inv.exists_arena there
  have inA := (inv.runs i a h atA here).inside member
  have inB := (inv.runs n b h' atB there).inside member'
  obtain ⟨boundA, valueA⟩ := List.getElem?_eq_some_iff.mp atA
  obtain ⟨boundB, valueB⟩ := List.getElem?_eq_some_iff.mp atB
  rcases lt_trichotomy i n with before | same | after
  · have apart := pairwise_iff_getElem.mp disjoint i n boundA boundB before
    rw [valueA, valueB] at apart
    simp only [Arena.Disjoint] at apart
    omega
  · exact same
  · have apart := pairwise_iff_getElem.mp disjoint n i boundB boundA after
    rw [valueA, valueB] at apart
    simp only [Arena.Disjoint] at apart
    omega

/-- Where all pools but the one with the table lose little at the bottom, every
pointer given out is found to belong to the pool it came from. -/
theorem joined_pointers_routed (accepted : ∀ a ∈ arenas, a.Accepted) (disjoint : arenas.Pairwise Arena.Disjoint)
    (few : arenas.length ≤ 255) (slim : Slim arenas (tableHome m arenas)) (reach : (runs m arenas).Reach j) :
    (∀ (i : Nat) (h : Heap), j.heaps[i]? = some h → ∀ ptr ∈ h.live.map Prod.fst, ptr ≠ j.table →
      findPoolForPtr j.pools ptr = some i) ∧
    ∀ s, j.Ok (.tryAlloc s) → ∃ heaps i ptr, tryPools s j.heaps = some (heaps, i, ptr) ∧
      (ptr ≠ null → (∃ h : Heap, heaps[i]? = some h ∧ (ptr, s) ∈ h.live) ∧ findPoolForPtr j.pools ptr = some i) := by
  have inv := reach_inv accepted disjoint few slim reach
  refine ⟨fun i h here ptr member other => inv.route disjoint slim here member other, ?_⟩
  intro s ok
  have moved := inv.step disjoint slim ok
  obtain ⟨heaps, i, ptr, result, cases⟩ := tryPools_spec (fun h member => inv.runs_mem member) ok
  refine ⟨heaps, i, ptr, result, ?_⟩
  intro found
  rcases cases with ⟨none, _⟩ | ⟨_, rfl, h, here, live⟩
  · exact absurd none found
  · simp only [act, result] at moved
    have new : (j.heaps.modify i (·.act (.tryAlloc s)))[i]? = some (h.act (.tryAlloc s)) := by
      rw [List.getElem?_modify, here]
      simp
    have given : ptr ∈ (h.act (.tryAlloc s)).live.map Prod.fst := by
      rw [live]
      simp
    have other : ptr ≠ j.table := by
      rintro rfl
      obtain ⟨h', atK, held, _⟩ := moved.table
      obtain rfl := moved.same_place disjoint new given atK held
      obtain ⟨h₀, atK₀, held₀, _⟩ := inv.table
      obtain rfl : h = h₀ := Option.some.inj (here.symm.trans atK₀)
      obtain ⟨a, atA⟩ := moved.exists_arena new
      obtain ⟨_, _, invH⟩ := moved.runs _ a _ atA new
      have nodup := invH.live_nodup
      rw [live] at nodup
      exact (List.nodup_cons.mp nodup).1 held₀
    exact ⟨⟨_, new, by rw [live]; simp⟩, moved.route disjoint slim new given other⟩

/-- A small arena that the table fills, and one from `base` on. -/
def pair (base : Nat) : List Arena := [⟨0x100, 0x1000, 64, 8⟩, ⟨0x200, base, 0x100, 8⟩]

theorem accepted_pair : ∀ base ∈ [0x2000, 0x2004], ∀ a ∈ pair base, a.Accepted := by
  have power : ∃ k ≤ 30, 8 = 2 ^ k := ⟨3, by decide, rfl⟩
  simp only [pair, forall_mem_cons, not_mem_nil, false_implies, implies_true, and_true]
  exact ⟨⟨⟨power, by decide, by decide, by decide, by decide, by decide, by decide⟩,
      ⟨power, by decide, by decide, by decide, by decide, by decide, by decide⟩⟩,
    ⟨power, by decide, by decide, by decide, by decide, by decide, by decide⟩,
    ⟨power, by decide, by decide, by decide, by decide, by decide, by decide⟩⟩

/-- The joined heap over the two arenas. -/
def joinedPair (base : Nat) : Option MempoolJoined := construct ((pair base).map (Arena.heap fun _ => 0))

theorem joinedPair_some : (joinedPair 0x2000).isSome ∧ (joinedPair 0x2004).isSome := by
  decide

/-- The smallest request to a joined heap, which the second pool has to serve. -/
def smallest {base : Nat} (built : (joinedPair base).isSome) : MempoolJoined :=
  ((joinedPair base).get built).act (.tryAlloc 4)

theorem reach_smallest {base : Nat} (built : (joinedPair base).isSome)
    (sane : ((joinedPair base).get built).Ok (.tryAlloc 4)) :
    (runs (fun _ => 0) (pair base)).Reach (smallest built) :=
  .next (.start (some_get built).symm) ⟨.tryAlloc 4, sane, rfl⟩

/-- An arena whose base lies right below an aligned address: the smallest block at its top is routed home. -/
theorem joined_pointers_routed_home : findPoolForPtr (smallest joinedPair_some.2).pools 0x2100 = some 1 := by
  have slim : Slim (pair 0x2004) (tableHome (fun _ => 0) (pair 0x2004)) := by
    have home : tableHome (fun _ => 0) (pair 0x2004) = 0 := by decide
    rw [home]
    intro i a here other
    match i with
    | 0 => exact absurd rfl other
    | 1 =>
      obtain rfl : (⟨0x200, 0x2004, 0x100, 8⟩ : Arena) = a := by simpa [pair] using here
      decide
    | n + 2 => simp [pair] at here
  have disjoint : (pair 0x2004).Pairwise Arena.Disjoint := by simp [pair, Arena.Disjoint]
  have sane : ∀ h ∈ ((joinedPair 0x2004).get joinedPair_some.2).heaps, h.Sane 4 := by decide
  obtain ⟨routed, _⟩ := joined_pointers_routed (accepted_pair 0x2004 (by decide)) disjoint (by decide) slim
    (reach_smallest joinedPair_some.2 sane)
  exact routed 1 ((smallest joinedPair_some.2).heaps.get ⟨1, by decide⟩) rfl 0x2100 (by decide) (by decide)

/-- An arena at an aligned address: the recorded range ends right before the
smallest block at its top, and no pool is found for the pointer. -/
theorem smallest_block_lost : ¬ ∀ (m : Memory) (arenas : List Arena) (j : MempoolJoined),
    (∀ a ∈ arenas, a.Accepted) → arenas.Pairwise Arena.Disjoint → arenas.length ≤ 255 → (runs m arenas).Reach j →
    ∀ (i : Nat) (h : Heap), j.heaps[i]? = some h → ∀ ptr ∈ h.live.map Prod.fst, ptr ≠ j.table →
      findPoolForPtr j.pools ptr = some i := by
  intro claim
  have disjoint : (pair 0x2000).Pairwise Arena.Disjoint := by simp [pair, Arena.Disjoint]
  have sane : ∀ h ∈ ((joinedPair 0x2000).get joinedPair_some.1).heaps, h.Sane 4 := by decide
  have routed := claim _ _ _ (accepted_pair 0x2000 (by decide)) disjoint (by decide)
    (reach_smallest joinedPair_some.1 sane) 1 ((smallest joinedPair_some.1).heaps.get ⟨1, by decide⟩) rfl 0x20f0
    (by decide) (by decide)
  exact absurd routed (by decide)

end MempoolJoined

end Ecos
