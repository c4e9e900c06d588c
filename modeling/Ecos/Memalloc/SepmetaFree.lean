import Ecos.Memalloc.SepmetaAlloc

namespace Ecos.MempoolSepmeta
open Ring.Nodes (before after before_mem after_mem after_cons after_nil before_nil before_concat)
open Function MempoolSepmeta Ring Block List

variable {p : MempoolSepmeta} {d v : Memdq} {l r blocks : List Block} {x y : Block} {unused : List Memdq} {k s : Nat}

/-- The blocks without their descriptors. -/
abbrev pieces (blocks : List Block) : List Piece := blocks.map Block.toPiece

namespace Lists

theorem after_free_cases (r : List Block) : after .freehead (dqs .free r) = .freehead ∨
    ∃ z ∈ r, z.use = .free ∧ after .freehead (dqs .free r) = z.dq := by
  cases shape : dqs .free r with
  | nil => exact .inl rfl
  | cons d rest =>
    have member : d ∈ dqs .free r := by simp [shape]
    obtain ⟨z, inside, free, rfl⟩ := mem_dqs.mp member
    exact .inr ⟨z, inside, free, rfl⟩

theorem ends_le (lists : p.Lists (l ++ x :: r) unused) (member : y ∈ r) : x.addr + x.size ≤ y.addr := by
  have tiles := lists.order.tiles
  rw [map_append, map_cons] at tiles
  obtain ⟨_, _, right⟩ := tiles_append.mp tiles
  exact (right.within (mem_map_of_mem member)).1

theorem addr_lt (lists : p.Lists (l ++ x :: r) unused) (member : y ∈ r) : x.addr < y.addr := by
  have ends := lists.ends_le member
  have positive := (lists.order.within (x := x) (by simp)).2.1
  omega

theorem findFreeDqSlot {fuel place : Nat} {l' : List Block} (lists : p.Lists (l ++ (l' ++ x :: r)) unused)
    (used : x.use ≠ .free) (low : x.addr ≤ place) (high : place < x.addr + x.size) (enough : (dqs .free l').length < fuel) :
    p.findFreeDqSlot place fuel (after .freehead (dqs .free (l' ++ x :: r))) =
      some (after .freehead (dqs .free r)) := by
  induction l' generalizing l fuel with
  | nil =>
    obtain ⟨fuel, rfl⟩ : ∃ f, fuel = f + 1 := ⟨fuel - 1, by omega⟩
    rw [nil_append, dqs_cons, if_neg used]
    rcases after_free_cases r with head | ⟨z, member, _, here⟩
    · rw [head]
      simp [findFreeDqSlot]
    · have later := lists.ends_le member
      have begins := lists.order.mems z (by simp [member])
      rw [here, findFreeDqSlot, begins, if_pos (by omega)]
  | cons y l' ih =>
    have regroup : l ++ (y :: l' ++ x :: r) = (l ++ [y]) ++ (l' ++ x :: r) := by simp
    have behind : (l ++ [y]) ++ (l' ++ x :: r) = l ++ y :: (l' ++ x :: r) := by simp
    rw [regroup] at lists
    by_cases free : y.use = .free
    · rw [dqs_cons, if_pos free, length_cons] at enough
      obtain ⟨fuel, rfl⟩ : ∃ f, fuel = f + 1 := ⟨fuel - 1, by omega⟩
      have proper := (lists.complete.dq_proper (x := y) (by simp)).2.2.1
      have begins := lists.order.mems y (by simp)
      have fewer : (dqs .free l').length < fuel := by omega
      have rest := ih lists fewer
      rw [behind] at lists
      have next : p.next y.dq = after .freehead (dqs .free (l' ++ x :: r)) := (lists.free_around free).1
      have before := lists.addr_lt (y := x) (by simp)
      rw [cons_append, dqs_cons, if_pos free, after_cons, findFreeDqSlot, begins,
        if_neg (by omega), if_neg proper, next]
      exact rest
    · rw [dqs_cons, if_neg free] at enough
      rw [cons_append, dqs_cons, if_neg free]
      exact ih lists enough

theorem findAllocedDq {fuel : Nat} {l' : List Block} (lists : p.Lists (l ++ (l' ++ x :: r)) unused)
    (live : x.use = .live) (enough : (dqs .live l').length < fuel) :
    p.findAllocedDq x.addr fuel (after .allocedhead (dqs .live (l' ++ x :: r) ++ [.memend])) = some x.dq := by
  induction l' generalizing l fuel with
  | nil =>
    obtain ⟨fuel, rfl⟩ : ∃ f, fuel = f + 1 := ⟨fuel - 1, by omega⟩
    have begins := lists.order.mems x (by simp)
    rw [nil_append, dqs_cons, if_pos live, cons_append, after_cons]
    simp [findAllocedDq, begins]
  | cons y l' ih =>
    have regroup : l ++ (y :: l' ++ x :: r) = (l ++ [y]) ++ (l' ++ x :: r) := by simp
    have behind : (l ++ [y]) ++ (l' ++ x :: r) = l ++ y :: (l' ++ x :: r) := by simp
    rw [regroup] at lists
    by_cases liveY : y.use = .live
    · rw [dqs_cons, if_pos liveY, length_cons] at enough
      obtain ⟨fuel, rfl⟩ : ∃ f, fuel = f + 1 := ⟨fuel - 1, by omega⟩
      have begins := lists.order.mems y (by simp)
      have fewer : (dqs .live l').length < fuel := by omega
      have rest := ih lists fewer
      rw [behind] at lists
      have next : p.next y.dq = after .allocedhead (dqs .live (l' ++ x :: r) ++ [.memend]) :=
        (lists.live_around liveY).1
      have before := lists.addr_lt (y := x) (by simp)
      have notEnd : after .allocedhead (dqs .live (l' ++ x :: r) ++ [.memend]) ≠ .memend := by
        obtain ⟨d, rest, shape⟩ := exists_cons_of_ne_nil (show dqs .live (l' ++ x :: r) ≠ [] by
          simp [dqs_split live])
        have member : d ∈ dqs .live (l' ++ x :: r) := by simp [shape]
        obtain ⟨z, inside, _, rfl⟩ := mem_dqs.mp member
        rw [shape, cons_append, after_cons]
        exact (lists.complete.dq_proper (x := z)
          (mem_append_right _ (mem_cons_of_mem _ inside))).2.2.2
      rw [cons_append, dqs_cons, if_pos liveY, cons_append, after_cons, findAllocedDq, begins,
        if_neg (by omega), next, if_neg notEnd]
      exact rest
    · rw [dqs_cons, if_neg liveY] at enough
      rw [cons_append, dqs_cons, if_neg liveY]
      exact ih lists enough

theorem findAllocedDq_head (lists : p.Lists (l ++ x :: r) unused) (live : x.use = .live) :
    p.findAllocedDq x.addr p.longest (p.next .allocedhead) = some x.dq := by
  have first : p.next .allocedhead = after .allocedhead (dqs .live (l ++ x :: r) ++ [.memend]) := by
    have ring := lists.threads.alloced
    exact (Nodes.IsRing.between (l := []) ring).1
  have fewer : (dqs .live l).length < p.longest := by
    have bound := lists.length_le
    have short := dqs_length_le .live l
    simp only [length_append, length_cons] at bound
    unfold longest
    omega
  rw [first]
  exact findAllocedDq (l := []) lists live fewer

theorem joinNext_free (lists : p.Lists (l ++ x :: y :: r) unused) (loose : x.use = .loose) (free : y.use = .free) :
    ∃ p', p.joinNext x.dq (after .freehead (dqs .free (y :: r))) = (p', y.dq) ∧
      p'.Lists (l ++ { y with addr := x.addr, size := x.size + y.size } :: r) (x.dq :: unused) ∧
      p'.arena = p.arena ∧ p'.freemem = p.freemem := by
  have begins := lists.order.mems x (by simp)
  have next : p.memlinks.next x.dq = y.dq := (lists.order.around).1
  refine ⟨{ p with
    links := { p.links with next := update p.links.next x.dq p.freemetahead }
    freemetahead := x.dq
    memlinks := p.memlinks.bridge x.dq
    mem := update p.mem y.dq x.addr }, ?_, ⟨?_, ?_, ?_, lists.small⟩, rfl, rfl⟩
  · rw [dqs_cons, if_pos free, after_cons]
    simp [joinNext, memnext, memprev, next, setMem, setMemprev, setMemnext, setNext, Nodes.bridge, begins]
  · exact lists.order.swallow lists.complete
  · exact (lists.threads.push lists.complete loose).resize rfl rfl
  · exact lists.complete.push.reuse rfl

theorem joinNext_used (lists : p.Lists (l ++ x :: r) unused) (loose : x.use = .loose)
    (used : ∀ y ∈ r.head?, y.use = .live) :
    ∃ p', p.joinNext x.dq (after .freehead (dqs .free r)) = (p', x.dq) ∧
      p'.Lists (l ++ { x with use := .free } :: r) unused ∧ p'.arena = p.arena ∧ p'.freemem = p.freemem := by
  have offFree := (lists.complete.loose_apart (x := x) (by simp) loose).1
  have target : after .freehead (dqs .free r) ∈ freeRing (l ++ x :: r) := by
    rw [freeRing_skip (by simp [loose])]
    have inside := after_mem (h := Memdq.freehead) (r := dqs .free r)
    simp only [mem_cons, mem_append] at inside ⊢
    tauto
  have apart : after .freehead (dqs .free r) ≠ x.dq := by
    intro same
    rw [same] at target
    exact offFree target
  have notNext : p.memlinks.next x.dq ≠ after .freehead (dqs .free r) := by
    have listed : after .memend (r.map dq) ∈ allocedRing (l ++ x :: r) := by
      rw [allocedRing_skip (by simp [loose])]
      cases r with
      | nil => simp
      | cons y r => simp [dqs_cons, used y rfl]
    rw [(lists.order.around).1]
    exact fun same => lists.complete.free_alloced target listed same.symm
  refine ⟨{ p with links := p.links.insert (after .freehead (dqs .free r)) x.dq }, ?_, ⟨?_, ?_, ?_, lists.small⟩, rfl, rfl⟩
  · have notNext' : ¬ p.memnext x.dq = after .freehead (dqs .free r) := notNext
    simp [joinNext, notNext', setNext, setPrev, prev, Nodes.insert, apart, apart.symm]
  · exact lists.order.reuse .free
  · exact lists.threads.insert_free lists.complete loose
  · exact lists.complete.reuse rfl

theorem joinPrev_free (lists : p.Lists (l ++ y :: x :: r) unused) (freeY : y.use = .free) (freeX : x.use = .free) :
    ∃ p', p.joinPrev x.dq = p' ∧ p'.Lists (l ++ { x with addr := y.addr, size := y.size + x.size } :: r) (y.dq :: unused) ∧
      p'.arena = p.arena ∧ p'.freemem = p.freemem := by
  have regroup : l ++ y :: x :: r = (l ++ [y]) ++ x :: r := by simp
  have begins := lists.order.mems y (by simp)
  have memnext : p.memlinks.next y.dq = x.dq := (lists.order.around).1
  have memprev : p.memlinks.prev x.dq = y.dq := by
    have around := (Order.around (regroup ▸ lists.order)).2
    simpa using around
  have prev : p.links.prev x.dq = y.dq := by
    have around := (free_around (regroup ▸ lists) freeX).2
    simpa [dqs_append, dqs_cons, freeY] using around
  have next : p.links.next y.dq = x.dq := by
    have around := (lists.free_around freeY).1
    simpa [dqs_cons, freeX] using around
  have notPrev := lists.free_prev_ne freeY
  have loose := lists.threads.unlink_free lists.complete freeY
  have complete' : Complete p.descriptors (l ++ { y with use := .loose } :: x :: r) unused := lists.complete.reuse rfl
  refine ⟨_, rfl, ?_⟩
  have built : p.joinPrev x.dq = { p with
      links := { p.links.bridge y.dq with next := update (p.links.bridge y.dq).next y.dq p.freemetahead }
      freemetahead := y.dq
      memlinks := p.memlinks.bridge y.dq
      mem := update p.mem x.dq y.addr } := by
    simp [joinPrev, MempoolSepmeta.memprev, MempoolSepmeta.prev, memprev, prev, setMem, setMemprev, setMemnext, setNext,
      setPrev, Nodes.bridge, begins, memnext, next, update_comm notPrev]
  rw [built]
  refine ⟨⟨?_, ?_, ?_, lists.small⟩, rfl, rfl⟩
  · exact lists.order.swallow lists.complete
  · exact (loose.push complete' rfl).resize rfl rfl
  · exact lists.complete.push.reuse rfl

theorem joinPrev_used (lists : p.Lists (l ++ x :: r) unused) (free : x.use = .free)
    (used : ∀ y ∈ l.getLast?, y.use = .live) : p.joinPrev x.dq = p := by
  have inFree : before .freehead (dqs .free l) ∈ freeRing (l ++ x :: r) := by
    rw [freeRing_split free]
    have inside := before_mem (h := Memdq.freehead) (l := dqs .free l)
    simp only [mem_cons, mem_append] at inside ⊢
    tauto
  have inAlloced : before .memend (l.map dq) ∈ allocedRing (l ++ x :: r) := by
    rw [allocedRing_skip (by simp [free])]
    induction l using reverseRecOn with
    | nil => simp
    | append_singleton l y _ => simp [dqs_append, dqs_cons, used y (by simp)]
  have other : p.memprev x.dq ≠ p.prev x.dq := by
    have memprev : p.memprev x.dq = before .memend (l.map dq) := (lists.order.around).2
    have prev : p.prev x.dq = before .freehead (dqs .free l) := (lists.free_around free).2
    rw [memprev, prev]
    exact fun same => lists.complete.free_alloced inFree inAlloced same.symm
  exact if_neg other

theorem live_of_settled (settled : x.use ≠ .loose) (used : x.use ≠ .free) : x.use = .live := by
  cases use : x.use with
  | free => exact absurd use used
  | live => rfl
  | loose => exact absurd use settled

section
variable (lists : p.Lists (l ++ x :: r) unused)
include lists

theorem coalesce_next (loose : x.use = .loose) (rest : Coalesced (pieces r)) (settled : ∀ y ∈ r, y.use ≠ .loose) :
    ∃ p' z r' unused', p.joinNext x.dq (after .freehead (dqs .free r)) = (p', z.dq) ∧ p'.Lists (l ++ z :: r') unused' ∧
      z.use = .free ∧ Coalesced (pieces (z :: r')) ∧
      z.size + freeBytes (pieces r') = x.size + freeBytes (pieces r) ∧
      usedPieces (pieces r') = usedPieces (pieces r) ∧ (∀ y ∈ r', y.use ≠ .loose) ∧
      p'.arena = p.arena ∧ p'.freemem = p.freemem := by
  by_cases behind : ∃ y r', r = y :: r' ∧ y.use = .free
  · obtain ⟨y, r', rfl, freeY⟩ := behind
    obtain ⟨p', joined, lists', arena, freemem⟩ := lists.joinNext_free loose freeY
    refine ⟨p', { y with addr := x.addr, size := x.size + y.size }, r', x.dq :: unused, joined, lists', freeY, ?_, ?_, ?_, ?_,
      arena, freemem⟩
    · refine coalesced_cons rest.tail fun _ z first freeZ => ?_
      exact (rest.rel_head? first) ⟨freeY, freeZ⟩
    · rw [pieces, pieces, map_cons, freeBytes_cons, if_pos freeY]
      simp only
      omega
    · rw [pieces, pieces, map_cons, usedPieces_cons, if_pos freeY]
    · exact fun z member => settled z (mem_cons_of_mem y member)
  · have used : ∀ y ∈ r.head?, y.use = .live := by
      intro y first
      obtain ⟨r', rfl⟩ := List.head?_eq_some_iff.mp first
      refine live_of_settled (settled y (by simp)) fun freeY => behind ⟨y, r', rfl, freeY⟩
    obtain ⟨p', joined, lists', arena, freemem⟩ := lists.joinNext_used loose used
    refine ⟨p', { x with use := .free }, r, unused, joined, lists', rfl, ?_, rfl, rfl, settled, arena, freemem⟩
    refine coalesced_cons rest fun _ z first freeZ => ?_
    obtain ⟨y, firstY, rfl⟩ : ∃ y, r.head? = some y ∧ y.toPiece = z := by simpa using first
    have live := used y firstY
    rw [live] at freeZ
    exact absurd freeZ (by simp)

theorem coalesce_prev (free : x.use = .free) (left : Coalesced (pieces l))
    (right : Coalesced (pieces (x :: r))) (settled : ∀ y ∈ l, y.use ≠ .loose) :
    ∃ blocks unused', (p.joinPrev x.dq).Lists blocks unused' ∧ Coalesced (pieces blocks) ∧
      freeBytes (pieces blocks) = freeBytes (pieces (l ++ x :: r)) ∧
      usedPieces (pieces blocks) = usedPieces (pieces (l ++ r)) ∧
      (p.joinPrev x.dq).arena = p.arena ∧ (p.joinPrev x.dq).freemem = p.freemem := by
  by_cases front : ∃ l' y, l = l' ++ [y] ∧ y.use = .free
  · obtain ⟨l', y, rfl, freeY⟩ := front
    have regroup : (l' ++ [y]) ++ x :: r = l' ++ y :: x :: r := by simp
    rw [regroup] at lists
    obtain ⟨_, rfl, lists', arena, freemem⟩ := lists.joinPrev_free freeY free
    refine ⟨_, _, lists', ?_, ?_, ?_, arena, freemem⟩
    · simp only [pieces, map_append, map_cons, map_nil] at left right ⊢
      have before : Coalesced (l'.map toPiece ++ [⟨y.addr, y.size + x.size, x.use⟩]) := by
        refine isChain_append.mpr ⟨left.left_of_append, isChain_singleton _, ?_⟩
        intro a last b first
        obtain rfl : ⟨y.addr, y.size + x.size, x.use⟩ = b := by simpa using first
        intro both
        exact (isChain_append.mp left).2.2 a last y.toPiece rfl ⟨both.1, freeY⟩
      refine isChain_split.mpr ⟨before, ?_⟩
      refine coalesced_cons right.tail fun _ z first freeZ => ?_
      exact (right.rel_head? first) ⟨free, freeZ⟩
    · rw [regroup]
      simp only [pieces, map_append, map_cons, freeBytes_append, freeBytes_cons, freeY, free, if_true]
      omega
    · simp [pieces, usedPieces, freeY, free]
  · have used : ∀ y ∈ l.getLast?, y.use = .live := by
      intro y last
      obtain ⟨l', rfl⟩ := getLast?_eq_some_iff.mp last
      exact live_of_settled (settled y (by simp)) fun freeY => front ⟨l', y, rfl, freeY⟩
    rw [lists.joinPrev_used free used]
    refine ⟨_, _, lists, ?_, rfl, ?_, rfl, rfl⟩
    · simp only [pieces, map_append] at left right ⊢
      refine isChain_append.mpr ⟨left, right, ?_⟩
      intro a last b _ both
      obtain ⟨y, lastY, rfl⟩ : ∃ y, l.getLast? = some y ∧ y.toPiece = a := by simpa using last
      rw [used y lastY] at both
      exact absurd both.1 (by simp)
    · simp [pieces, usedPieces, free]

theorem insertFreeBlock (loose : x.use = .loose)
    (coalesced : Coalesced (pieces (l ++ x :: r))) (settled : ∀ y ∈ l ++ r, y.use ≠ .loose) :
    ∃ p' blocks unused', p.insertFreeBlock x.dq = some p' ∧ p'.Lists blocks unused' ∧ Coalesced (pieces blocks) ∧
      freeBytes (pieces blocks) = freeBytes (pieces (l ++ r)) + x.size ∧
      usedPieces (pieces blocks) = usedPieces (pieces (l ++ r)) ∧ p'.arena = p.arena ∧ p'.freemem = p.freemem := by
  have begins := lists.order.mems x (by simp)
  have slot : p.findFreeDqSlot (p.mem x.dq) p.longest (p.next .freehead) = some (after .freehead (dqs .free r)) := by
    have first : p.next .freehead = after .freehead (dqs .free (l ++ x :: r)) := by
      have ring := lists.threads.free
      exact (Nodes.IsRing.between (l := []) ring).1
    have fewer : (dqs .free l).length < p.longest := by
      have bound := lists.length_le
      have short := dqs_length_le .free l
      simp only [length_append, length_cons] at bound
      unfold longest
      omega
    have positive := (lists.order.within (x := x) (by simp)).2.1
    rw [first, begins]
    exact findFreeDqSlot (l := []) lists (by simp [loose]) le_rfl (by omega) fewer
  have parts : Coalesced (pieces l) ∧ Coalesced (pieces (x :: r)) := by
    rw [pieces, map_append] at coalesced
    exact ⟨(isChain_append.mp coalesced).1, (isChain_append.mp coalesced).2.1⟩
  obtain ⟨p', z, r', unused', joined, lists', freeZ, right, bytes, sameUsed, _, arena, freemem⟩ :=
    lists.coalesce_next loose parts.2.tail fun y member => settled y (mem_append_right _ member)
  obtain ⟨blocks, unused'', lists'', whole, bytes', sameUsed', arena', freemem'⟩ :=
    lists'.coalesce_prev freeZ parts.1 right fun y member => settled y (mem_append_left _ member)
  refine ⟨_, blocks, unused'', ?_, lists'', whole, ?_, ?_, arena'.trans arena, freemem'.trans freemem⟩
  · simp only [MempoolSepmeta.insertFreeBlock, slot, Option.map_some, joined]
  · rw [bytes']
    simp only [pieces, map_append, map_cons, freeBytes_append, freeBytes_cons, if_pos freeZ] at bytes ⊢
    omega
  · rw [sameUsed']
    simp only [pieces, map_append, usedPieces_append] at sameUsed ⊢
    rw [sameUsed]

theorem free (live : x.use = .live)
    (coalesced : Coalesced (pieces (l ++ x :: r))) (settled : ∀ y ∈ l ++ x :: r, y.use ≠ .loose) :
    (∃ p' blocks unused', p.free x.addr s = some (p', true) ∧ p'.Lists blocks unused' ∧ Coalesced (pieces blocks) ∧
      freeBytes (pieces blocks) = freeBytes (pieces (l ++ r)) + x.size ∧
      usedPieces (pieces blocks) = usedPieces (pieces (l ++ r)) ∧ p'.arena = p.arena ∧
      p'.freemem = p.freemem + x.size) ∨ p.free x.addr s = some (p, false) := by
  have within := lists.order.within (x := x) (by simp)
  have inside : p.bottom ≤ x.addr ∧ x.addr ≤ p.top := by omega
  have proper := (lists.complete.dq_proper (x := x) (by simp)).1
  have found := lists.findAllocedDq_head live
  have unfolded : p.free x.addr s = if x.size ≠ (if s = 0 then x.size else p.roundsize s) then some (p, false)
      else ((p.unlink x.dq).insertFreeBlock x.dq).map fun q =>
        ({ q with freemem := q.freemem + (if s = 0 then x.size else p.roundsize s : Nat) }, true) := by
    simp only [MempoolSepmeta.free, not_not.mpr inside, if_false, found, proper, lists.extent]
  by_cases wrong : x.size ≠ (if s = 0 then x.size else p.roundsize s)
  · exact .inr (by rw [unfolded, if_pos wrong])
  · have exact := not_not.mp wrong
    rw [unfolded, if_neg wrong, ← exact, unlink_eq (lists.live_prev_ne live).symm]
    have lists' : ({ p with links := p.links.bridge x.dq } : MempoolSepmeta).Lists
        (l ++ { x with use := .loose } :: r) unused :=
      ⟨lists.order.reuse .loose, lists.threads.unlink_live lists.complete live, lists.complete.reuse rfl, lists.small⟩
    have coalesced' : Coalesced (pieces (l ++ { x with use := .loose } :: r)) := by
      simp only [pieces, map_append, map_cons] at coalesced ⊢
      have parts := isChain_append.mp coalesced
      refine isChain_append.mpr ⟨parts.1, coalesced_cons parts.2.1.tail (by simp), ?_⟩
      intro a _ b first both
      obtain rfl : ⟨x.addr, x.size, .loose⟩ = b := by simpa using first
      simp at both
    have settled' : ∀ y ∈ l ++ r, y.use ≠ .loose := by
      intro y member
      refine settled y ?_
      simp only [mem_append, mem_cons] at member ⊢
      tauto
    obtain ⟨p', blocks, unused', inserted, lists'', whole, bytes, used, arena, freemem⟩ :=
      lists'.insertFreeBlock rfl coalesced' settled'
    refine .inl ⟨{ p' with freemem := p'.freemem + x.size }, blocks, unused', ?_,
      ⟨lists''.order, lists''.threads, lists''.complete, lists''.small⟩, whole, bytes, used, arena, ?_⟩
    · have inserted' : MempoolSepmeta.insertFreeBlock { p with links := p.links.bridge x.dq } x.dq = some p' := inserted
      rw [inserted']
      rfl
    · simp [freemem]

end

end Lists

end Ecos.MempoolSepmeta
