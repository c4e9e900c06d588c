import Ecos.Memalloc.MvarSafety

/-! What a pool answers does not depend on how its allocations came about. -/

namespace Ecos
open List
open MempoolVariable (roundup alloc2memdq)
variable {g : Geometry} {l l' pieces : List Piece} {x : Piece} {a b n s head base size align : Nat} {m m' : Memory}

namespace Heap
variable {h h' : Heap}

/-- Where `try_alloc` takes memory. -/
theorem Inv.answer (inv : Inv g h pieces) (size : n = roundup g.alignment s) : (h.pool.tryAlloc s).map Prod.snd =
    some (match pieces.find? (fitting n) with
      | none => null
      | some x => if x.addr = null then null else x.addr + (x.size - n) + sizeofMemdq) := by
  rw [inv.holds.tryAlloc_find inv.here size]
  cases search : pieces.find? (fitting n) with
  | none => rfl
  | some x =>
    have sizes := inv.holds.sizes x (List.mem_of_find?_eq_some search)
    dsimp only
    split
    · rfl
    · by_cases whole : n = x.size
      · simp [MempoolVariable.takeFrom, MempoolVariable.memdq2alloc, sizes, whole]
      · simp [MempoolVariable.takeFrom, MempoolVariable.memdq2alloc, sizes, whole, Memory.size_setSize]

end Heap
end Ecos
