import Ecos.Memalloc.Sepmeta

namespace Ecos
open Ring.Nodes (before after before_mem after_mem after_cons after_nil)
open Function Block
open List (map_append map_cons mem_append mem_cons mem_cons_of_mem mem_cons_self mem_map mem_map_of_mem
  nodup_append nodup_cons perm_append_comm)

variable {n n' : Ring.Nodes Memdq} {mem : Memdq → Nat} {bottom top count : Nat} {head d : Memdq} {use : Use}
  {l r blocks : List Block} {x y : Block} {unused : List Memdq} {k : Nat}

/-- What `next` and `prev` hold: the free, the allocated and the unused descriptors. -/
structure MetaThreads (n : Ring.Nodes Memdq) (head : Memdq) (blocks : List Block) (unused : List Memdq) : Prop where
  free : n.IsRing (freeRing blocks)
  alloced : n.IsRing (allocedRing blocks)
  unused : Chain (fun d => (n.next d).ref) head.ref unused

theorem dqs_split (same : x.use = use) : dqs use (l ++ x :: r) = dqs use l ++ x.dq :: dqs use r := by
  simp [dqs_append, dqs_cons, same]

theorem dqs_skip (other : x.use ≠ use) : dqs use (l ++ x :: r) = dqs use l ++ dqs use r := by
  simp [dqs_append, dqs_cons, other]

theorem allocedRing_split (live : x.use = .live) :
    allocedRing (l ++ x :: r) = .allocedhead :: (dqs .live l ++ x.dq :: (dqs .live r ++ [.memend])) := by
  simp [allocedRing, dqs_split live]

theorem allocedRing_skip (other : x.use ≠ .live) :
    allocedRing (l ++ x :: r) = .allocedhead :: (dqs .live l ++ (dqs .live r ++ [.memend])) := by
  simp [allocedRing, dqs_skip other]

theorem freeRing_split (free : x.use = .free) :
    freeRing (l ++ x :: r) = .freehead :: (dqs .free l ++ x.dq :: dqs .free r) := by
  simp [freeRing, dqs_split free]

theorem freeRing_skip (other : x.use ≠ .free) :
    freeRing (l ++ x :: r) = .freehead :: (dqs .free l ++ dqs .free r) := by
  simp [freeRing, dqs_skip other]

theorem dq_mem_freeRing (free : x.use = .free) : x.dq ∈ freeRing (l ++ x :: r) := by
  simp [freeRing_split free]

theorem dq_mem_allocedRing (live : x.use = .live) : x.dq ∈ allocedRing (l ++ x :: r) := by
  simp [allocedRing_split live]

namespace MetaThreads

theorem ring_kept {list : List Memdq} (ring : n.IsRing list)
    (same : ∀ d ∈ list, n'.next d = n.next d ∧ n'.prev d = n.prev d) : n'.IsRing list :=
  ring.congr (fun d member => (same d member).1) fun d member => (same d member).2

theorem chain_kept {p : Option Memdq} (chain : Chain (fun d => (n.next d).ref) p unused)
    (same : ∀ d ∈ unused, n'.next d = n.next d) : Chain (fun d => (n'.next d).ref) p unused := by
  refine chain.congr fun d member => ?_
  rw [same d member]

section Keep
variable (threads : MetaThreads n head (l ++ x :: r) unused) (complete : Complete count (l ++ x :: r) unused)
include threads complete

theorem unlink_free (free : x.use = .free) : MetaThreads (n.bridge x.dq) head (l ++ { x with use := .loose } :: r) unused := by
  have member := dq_mem_freeRing (l := l) (r := r) free
  refine ⟨?_, ?_, ?_⟩
  · have ring := threads.free
    have nodup := complete.freeRing_nodup
    rw [freeRing_split free] at ring nodup
    rw [freeRing_skip (by simp)]
    exact ring.bridge nodup
  · have ring := threads.alloced
    rw [allocedRing_skip (by simp [free])] at ring
    rw [allocedRing_skip (by simp)]
    refine ring_kept ring fun d inside => threads.free.bridge_off member fun inFree => ?_
    rw [← allocedRing_skip (x := x) (by simp [free])] at inside
    exact complete.free_alloced inFree inside rfl
  · refine chain_kept threads.unused fun d inside => ?_
    exact (threads.free.bridge_off member fun inFree => complete.free_unused inFree inside rfl).1

theorem unlink_live (live : x.use = .live) : MetaThreads (n.bridge x.dq) head (l ++ { x with use := .loose } :: r) unused := by
  have member := dq_mem_allocedRing (l := l) (r := r) live
  refine ⟨?_, ?_, ?_⟩
  · have ring := threads.free
    rw [freeRing_skip (by simp [live])] at ring
    rw [freeRing_skip (by simp)]
    refine ring_kept ring fun d inside => threads.alloced.bridge_off member fun inAlloced => ?_
    rw [← freeRing_skip (x := x) (by simp [live])] at inside
    exact complete.free_alloced inside inAlloced rfl
  · have ring := threads.alloced
    have nodup := complete.allocedRing_nodup
    rw [allocedRing_split live] at ring nodup
    rw [allocedRing_skip (by simp)]
    exact ring.bridge nodup
  · refine chain_kept threads.unused fun d inside => ?_
    exact (threads.alloced.bridge_off member fun inAlloced => complete.alloced_unused inAlloced inside rfl).1

variable (loose : x.use = .loose)
include loose

theorem insert_free :
    MetaThreads (n.insert (after .freehead (dqs .free r)) x.dq) head (l ++ { x with use := .free } :: r) unused := by
  obtain ⟨offFree, offAlloced, offUnused⟩ := complete.loose_apart (x := x) (by simp) loose
  have target : after .freehead (dqs .free r) ∈ freeRing (l ++ x :: r) := by
    rw [freeRing_skip (by simp [loose])]
    have inside := after_mem (h := Memdq.freehead) (r := dqs .free r)
    simp only [mem_cons, mem_append] at inside ⊢
    tauto
  have kept : ∀ d, d ∉ freeRing (l ++ x :: r) → d ≠ x.dq →
      (n.insert (after .freehead (dqs .free r)) x.dq).next d = n.next d ∧
        (n.insert (after .freehead (dqs .free r)) x.dq).prev d = n.prev d :=
    fun d off other => threads.free.insert_off target offFree off other
  refine ⟨?_, ?_, ?_⟩
  · have ring := threads.free
    have nodup := complete.freeRing_nodup
    rw [freeRing_skip (by simp [loose])] at ring nodup offFree
    rw [freeRing_split rfl]
    exact ring.insert_at nodup offFree
  · have ring := threads.alloced
    rw [allocedRing_skip (by simp [loose])] at ring
    rw [allocedRing_skip (by simp)]
    refine ring_kept ring fun d inside => ?_
    rw [← allocedRing_skip (x := x) (by simp [loose])] at inside
    refine kept d (fun inFree => complete.free_alloced inFree inside rfl) ?_
    exact fun same => offAlloced (same ▸ inside)
  · refine chain_kept threads.unused fun d inside => ?_
    refine (kept d (fun inFree => complete.free_unused inFree inside rfl) ?_).1
    exact fun same => offUnused (same ▸ inside)

theorem alloced_place : after .allocedhead (dqs .live r ++ [.memend]) ∈ allocedRing (l ++ x :: r) ∧
    after .allocedhead (dqs .live r ++ [.memend]) ≠ x.dq ∧
      n.prev (after .allocedhead (dqs .live r ++ [.memend])) ≠ x.dq := by
  have offAlloced := (complete.loose_apart (x := x) (by simp) loose).2.1
  have target : after .allocedhead (dqs .live r ++ [.memend]) ∈ allocedRing (l ++ x :: r) := by
    rw [allocedRing_skip (by simp [loose])]
    have inside := after_mem (h := Memdq.allocedhead) (r := dqs .live r ++ [.memend])
    simp only [mem_cons, mem_append] at inside ⊢
    tauto
  have front := threads.alloced.prev_mem target
  refine ⟨target, fun same => ?_, fun same => ?_⟩
  · rw [same] at target
    exact offAlloced target
  · rw [same] at front
    exact offAlloced front

theorem insert_live : MetaThreads (n.insert (after .allocedhead (dqs .live r ++ [.memend])) x.dq) head
    (l ++ { x with use := .live } :: r) unused := by
  obtain ⟨offFree, offAlloced, offUnused⟩ := complete.loose_apart (x := x) (by simp) loose
  have target := (threads.alloced_place complete loose).1
  have kept : ∀ d, d ∉ allocedRing (l ++ x :: r) → d ≠ x.dq →
      (n.insert (after .allocedhead (dqs .live r ++ [.memend])) x.dq).next d = n.next d ∧
        (n.insert (after .allocedhead (dqs .live r ++ [.memend])) x.dq).prev d = n.prev d :=
    fun d off other => threads.alloced.insert_off target offAlloced off other
  refine ⟨?_, ?_, ?_⟩
  · have ring := threads.free
    rw [freeRing_skip (by simp [loose])] at ring
    rw [freeRing_skip (by simp)]
    refine ring_kept ring fun d inside => ?_
    rw [← freeRing_skip (x := x) (by simp [loose])] at inside
    refine kept d (fun inAlloced => complete.free_alloced inside inAlloced rfl) ?_
    exact fun same => offFree (same ▸ inside)
  · have ring := threads.alloced
    have nodup := complete.allocedRing_nodup
    rw [allocedRing_skip (by simp [loose])] at ring nodup offAlloced
    rw [allocedRing_split rfl]
    exact ring.insert_at nodup offAlloced
  · refine chain_kept threads.unused fun d inside => ?_
    refine (kept d (fun inAlloced => complete.alloced_unused inAlloced inside rfl) ?_).1
    exact fun same => offUnused (same ▸ inside)

theorem push : MetaThreads { n with next := update n.next x.dq head } x.dq (l ++ r) (x.dq :: unused) := by
  obtain ⟨offFree, offAlloced, offUnused⟩ := complete.loose_apart (x := x) (by simp) loose
  have kept : ∀ d, d ≠ x.dq → update n.next x.dq head d = n.next d :=
    fun d other => update_of_ne other _ _
  have proper := (complete.dq_proper (x := x) (by simp)).1
  refine ⟨?_, ?_, ?_, ?_⟩
  · have same : freeRing (l ++ r) = freeRing (l ++ x :: r) := by
      simp [freeRing, dqs_append, dqs_cons, loose]
    rw [same]
    exact ring_kept threads.free fun d inside => ⟨kept d fun eq => offFree (eq ▸ inside), rfl⟩
  · have same : allocedRing (l ++ r) = allocedRing (l ++ x :: r) := by
      simp [allocedRing, dqs_append, dqs_cons, loose]
    rw [same]
    exact ring_kept threads.alloced fun d inside => ⟨kept d fun eq => offAlloced (eq ▸ inside), rfl⟩
  · cases named : x.dq <;> first | rfl | exact absurd named proper
  · show Chain _ (update n.next x.dq head x.dq).ref unused
    rw [update_self]
    exact @chain_kept _ { n with next := update n.next x.dq head } _ _ threads.unused
      fun d inside => kept d fun eq => offUnused (eq ▸ inside)

end Keep

theorem resize (threads : MetaThreads n head (l ++ x :: r) unused) (sameUse : y.use = x.use) (sameDq : y.dq = x.dq) :
    MetaThreads n head (l ++ y :: r) unused := by
  have same : ∀ use, dqs use (l ++ y :: r) = dqs use (l ++ x :: r) := by
    intro use
    simp [dqs_append, dqs_cons, sameUse, sameDq]
  refine ⟨?_, ?_, threads.unused⟩
  · rw [freeRing, same]
    exact threads.free
  · rw [allocedRing, same]
    exact threads.alloced

theorem pop (threads : MetaThreads n head (l ++ r) unused) (some : head ≠ .null) (named : y.dq = head)
    (loose : y.use = .loose) : ∃ rest, unused = head :: rest ∧ MetaThreads n (n.next head) (l ++ y :: r) rest := by
  have first : head.ref = .some head := by
    cases head <;> first | rfl | exact absurd rfl some
  have chain := threads.unused
  rw [first] at chain
  obtain ⟨rest, shape, later⟩ := chain.cons_of_some
  refine ⟨rest, shape, ?_, ?_, later⟩
  · have same : freeRing (l ++ y :: r) = freeRing (l ++ r) := by
      simp [freeRing, dqs_append, dqs_cons, loose]
    rw [same]
    exact threads.free
  · have same : allocedRing (l ++ y :: r) = allocedRing (l ++ r) := by
      simp [allocedRing, dqs_append, dqs_cons, loose]
    rw [same]
    exact threads.alloced

end MetaThreads

/-- What `memnext`, `memprev` and `mem` hold: the blocks in the order of their addresses. -/
structure Order (n : Ring.Nodes Memdq) (mem : Memdq → Nat) (bottom top : Nat) (blocks : List Block) : Prop where
  ring : n.IsRing (.memend :: blocks.map Block.dq)
  tiles : Tiles Piece.addr Piece.size bottom (blocks.map Block.toPiece) top
  mems : ∀ x ∈ blocks, mem x.dq = x.addr
  ends : mem .memend = top

namespace Order

theorem around (order : Order n mem bottom top (l ++ x :: r)) :
    n.next x.dq = after .memend (r.map Block.dq) ∧ n.prev x.dq = before .memend (l.map Block.dq) := by
  have ring := order.ring
  rw [map_append, map_cons] at ring
  exact ring.around.1

theorem mem_next (order : Order n mem bottom top (l ++ x :: r)) : mem (n.next x.dq) = x.addr + x.size := by
  have tiles := order.tiles
  rw [map_append, map_cons] at tiles
  obtain ⟨_, _, right⟩ := tiles_append.mp tiles
  rw [order.around.1]
  cases r with
  | nil => exact order.ends.trans right.symm
  | cons y r =>
    have here := order.mems y (by simp)
    exact here.trans right.1

theorem within (order : Order n mem bottom top blocks) (member : x ∈ blocks) :
    bottom ≤ x.addr ∧ 0 < x.size ∧ x.addr + x.size ≤ top :=
  order.tiles.within (mem_map_of_mem member)

theorem reuse (order : Order n mem bottom top (l ++ x :: r)) (use : Use) :
    Order n mem bottom top (l ++ { x with use := use } :: r) := by
  refine ⟨?_, ?_, ?_, order.ends⟩
  · have ring := order.ring
    simpa using ring
  · have tiles := order.tiles
    rw [map_append, map_cons] at tiles ⊢
    obtain ⟨left, positive, right⟩ := tiles_append.mp tiles
    exact tiles_append.mpr ⟨left, positive, right⟩
  · intro y member
    rcases List.mem_append.mp member with left | right
    · exact order.mems y (by simp [left])
    · rcases List.mem_cons.mp right with rfl | later
      · exact order.mems x (by simp)
      · exact order.mems y (by simp [later])

theorem swallow (order : Order n mem bottom top (l ++ x :: y :: r)) (complete : Complete count (l ++ x :: y :: r) unused) :
    Order (n.bridge x.dq) (update mem y.dq x.addr) bottom top
      (l ++ { y with addr := x.addr, size := x.size + y.size } :: r) := by
  have nodup := complete.memring_nodup
  have notEnd := (complete.dq_proper (x := y) (by simp)).2.2.2
  refine ⟨?_, ?_, ?_, ?_⟩
  · have ring := order.ring
    rw [map_append, map_cons] at ring nodup
    have bridged := ring.bridge nodup
    simpa using bridged
  · have tiles := order.tiles
    simp only [map_append, map_cons] at tiles ⊢
    obtain ⟨left, positive, here, _, right⟩ := tiles_append.mp tiles
    refine tiles_append.mpr ⟨left, ?_, ?_⟩
    · simp only
      omega
    · simpa [Nat.add_assoc] using right
  · intro z member
    have others : ∀ z, z ∈ l ∨ z ∈ r → update mem y.dq x.addr z.dq = z.addr := by
      intro z inside
      have listed : z ∈ l ++ x :: y :: r := by
        simp only [mem_append, mem_cons]
        tauto
      have apart : z.dq ≠ y.dq := by
        intro same
        simp only [map_append, map_cons, nodup_cons, nodup_append, mem_cons,
          mem_map] at nodup
        rcases inside with left | right
        · exact nodup.2.2.2 z.dq ⟨z, left, rfl⟩ y.dq (.inr (.inl rfl)) same
        · exact nodup.2.2.1.2.1 ⟨z, right, same⟩
      rw [update_of_ne apart]
      exact order.mems z listed
    rcases List.mem_append.mp member with left | right
    · exact others z (.inl left)
    · rcases List.mem_cons.mp right with rfl | later
      · exact update_self ..
      · exact others z (.inr later)
  · rw [update_of_ne notEnd.symm]
    exact order.ends

theorem cut (order : Order n mem bottom top (l ++ x :: r)) (complete : Complete count (l ++ x :: r) (d :: unused))
    (positive : 0 < k) (less : k < x.size) : Order (n.append x.dq d) (update mem d (x.addr + (x.size - k)))
      bottom top (l ++ { x with size := x.size - k } :: ⟨⟨x.addr + (x.size - k), k, .live⟩, d⟩ :: r) := by
  have nodup := complete.memring_nodup
  have proper := complete.proper (d := d) (by simp)
  have fresh : d ∉ Memdq.memend :: (l ++ x :: r).map dq := by
    have once := complete.nodup_iff.mpr (everyMemdq_nodup count)
    intro member
    rcases List.mem_cons.mp member with same | inside
    · exact proper.2.2.2 same
    · exact (List.nodup_append.mp once).2.2 d inside d (mem_cons_self ..) rfl
  refine ⟨?_, ?_, ?_, ?_⟩
  · have ring := order.ring
    simp only [map_append, map_cons] at ring nodup fresh ⊢
    -- `append` behind `x` is easiest with `x` as the head of the ring
    have turned : n.IsRing (.memend :: l.map dq ++ x.dq :: r.map dq) ↔
        n.IsRing (x.dq :: r.map dq ++ .memend :: l.map dq) := Ring.Nodes.isRing_append_comm
    have turned' : (n.append x.dq d).IsRing (.memend :: l.map dq ++ x.dq :: d :: r.map dq) ↔
        (n.append x.dq d).IsRing (x.dq :: d :: r.map dq ++ .memend :: l.map dq) :=
      Ring.Nodes.isRing_append_comm
    have order' : ((x.dq :: r.map dq) ++ .memend :: l.map dq).Perm
        (.memend :: l.map dq ++ x.dq :: r.map dq) := perm_append_comm
    refine turned'.mpr ((turned.mp ring).append_head (order'.nodup_iff.mpr nodup) ?_)
    exact fun member => fresh (order'.mem_iff.mp member)
  · have tiles := order.tiles
    simp only [map_append, map_cons] at tiles ⊢
    obtain ⟨left, _, right⟩ := tiles_append.mp tiles
    refine tiles_append.mpr ⟨left, ?_, rfl, positive, ?_⟩
    · simp only
      omega
    · have sum : x.addr + (x.size - k) + k = x.addr + x.size := by omega
      simp only [sum]
      exact right
  · intro z member
    have others : ∀ z ∈ l ++ x :: r, update mem d (x.addr + (x.size - k)) z.dq = z.addr := by
      intro z inside
      have apart : z.dq ≠ d := fun same => fresh (mem_cons_of_mem _ (List.mem_map.mpr ⟨z, inside, same⟩))
      rw [update_of_ne apart]
      exact order.mems z inside
    rcases List.mem_append.mp member with left | right
    · exact others z (by simp [left])
    · rcases List.mem_cons.mp right with rfl | later
      · exact others x (by simp)
      · rcases List.mem_cons.mp later with rfl | behind
        · exact update_self ..
        · exact others z (by simp [behind])
  · rw [update_of_ne proper.2.2.2.symm]
    exact order.ends

end Order

end Ecos
