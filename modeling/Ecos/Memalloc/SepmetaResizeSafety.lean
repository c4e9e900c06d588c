import Ecos.Memalloc.SepmetaResize

namespace Ecos
open Ring.Nodes (before after before_mem after_mem after_cons after_nil before_concat)
open Function Nat MempoolSepmeta List

namespace MempoolSepmeta
variable {p p' : MempoolSepmeta} {data : Nat → Nat} {S : Memdq → Prop} {d : Memdq} {l r blocks : List Block}
  {x y w : Block} {unused : List Memdq} {k place fuel : Nat}

namespace Lists

theorem address_small (lists : p.Lists blocks unused) (below : p.top < 2 ^ 32) (member : x ∈ blocks) :
    x.addr + x.size < 2 ^ 32 := by
  have within := lists.order.within member
  omega

section
variable (lists : p.Lists (l ++ x :: r) unused)
include lists

theorem resizeAlloc_eq (live : x.use = .live) : p.resizeAlloc data x.addr k =
      match if (k : Int) > x.size then p.grow data k x.size x.dq else some (p, data, (x.size : Int)) with
      | none => some (p, data, (x.size : Int), Ecos.null)
      | some (grown, data, currsize) =>
        if k < currsize then
          match grown.shrink k currsize x.dq with
          | none => none
          | some (p, false) => some (p, data, (x.size : Int), Ecos.null)
          | some (p, true) => some ({ p with freemem := p.freemem + (x.size - k) }, data, (x.size : Int), p.mem x.dq)
        else some ({ grown with freemem := grown.freemem + (x.size - k) }, data, (x.size : Int), grown.mem x.dq) := by
  have found := lists.findAllocedDq_head live
  simp only [resizeAlloc, found, lists.currsize_eq] <;> rfl

theorem resize_same (live : x.use = .live) :
    p.resizeAlloc data x.addr x.size = some (p, data, (x.size : Int), x.addr) := by
  have begins := lists.order.mems x (by simp)
  rw [lists.resizeAlloc_eq live, if_neg (lt_irrefl _)]
  simp [begins]

theorem resize_refused (live : x.use = .live) (more : x.size < k)
    (room : p.nextmemsize x.dq + p.prevmemsize x.dq + x.size < k) :
    p.resizeAlloc data x.addr k = some (p, data, (x.size : Int), Ecos.null) := by
  rw [lists.resizeAlloc_eq live, if_pos (by omega)]
  simp only [grow, if_pos room]

theorem resize_spent (live : x.use = .live) (less : k < x.size)
    (used : ∀ y ∈ r.head?, y.use = .live) (spent : p.freemetahead = .null) :
    p.resizeAlloc data x.addr k = some (p, data, (x.size : Int), Ecos.null) := by
  have same := (lists.next_used live used).1
  rw [lists.resizeAlloc_eq live, if_neg (by omega)]
  simp only [shrink, same, ne_eq, not_true_eq_false, if_false, spent, if_true]
  rw [if_pos (by omega)]

end

theorem resize_next (lists : p.Lists (l ++ x :: y :: r) unused) (live : x.use = .live) (free : y.use = .free)
    (below : p.top < 2 ^ 32)
    (room : k < x.size ∨ x.size < k ∧ ¬ p.nextmemsize x.dq + p.prevmemsize x.dq + x.size < k ∧ k < x.size + y.size) :
    p.resizeAlloc data x.addr k =
      some ({ p.setMem y.dq (x.addr + k) with freemem := p.freemem + (x.size - k) }, data, (x.size : Int), x.addr) := by
  obtain ⟨memnext, apart, size⟩ := lists.next_free live free
  have begins := lists.order.mems x (by simp)
  have behind := lists.order.mems y (by simp)
  have here := lists.neighbours
  have limit := lists.address_small (x := y) below (by simp)
  have other : x.dq ≠ y.dq := by
    have nodup := lists.complete.memring_nodup
    simp only [map_append, map_cons, nodup_cons, nodup_append, mem_cons] at nodup
    exact fun same => nodup.2.2.1.1 (.inl same)
  have kept : (p.setMem y.dq (x.addr + k)).mem x.dq = x.addr := (update_of_ne other _ _).trans begins
  rw [lists.resizeAlloc_eq live]
  rcases room with less | ⟨more, fits, part⟩
  · have target : address ((p.mem y.dq : Int) - (x.size - k)) = x.addr + k := by
      refine address_of ?_ (by omega)
      rw [behind, here]
      omega
    rw [if_neg (by omega)]
    have apart' : y.dq ≠ p.next x.dq := memnext ▸ apart.symm
    simp only [if_pos (show (k : Int) < x.size by omega), shrink, memnext, if_pos apart', target, kept]
    rfl
  · have target : address ((p.mem y.dq : Int) + (k - x.size)) = x.addr + k := by
      refine address_of ?_ (by omega)
      rw [behind, here]
      omega
    have forwards : p.expandForwards k y.size x.size x.dq = (p.setMem y.dq (x.addr + k), (k : Int)) := by
      rw [expandForwards, if_neg (by omega), if_neg (by omega), memnext, target]
    rw [size] at fits
    rw [if_pos (by omega)]
    simp only [grow, size, if_neg fits, forwards, lt_irrefl, false_and, if_false, kept]
    rfl

theorem resize_prev (lists : p.Lists (l ++ w :: x :: r) unused) (live : x.use = .live) (free : w.use = .free)
    (used : ∀ y ∈ r.head?, y.use = .live) (below : p.top < 2 ^ 32) (more : x.size < k) (part : k < x.size + w.size) :
    p.resizeAlloc data x.addr k =
      some ({ p.setMem x.dq (x.addr - (k - x.size)) with freemem := p.freemem + (x.size - k) },
        copyData data (x.addr - (k - x.size)) x.addr x.size, (x.size : Int), x.addr - (k - x.size)) := by
  have regroup : l ++ w :: x :: r = (l ++ [w]) ++ x :: r := by simp
  have noNext : p.nextmemsize x.dq = 0 := (next_used (regroup ▸ lists) live used).2
  obtain ⟨_, size⟩ := lists.prev_free live free
  have begins := lists.order.mems x (by simp)
  have here := lists.neighbours
  have limit := lists.address_small (x := x) below (by simp)
  have target : address ((p.mem x.dq : Int) - (k - x.size)) = x.addr - (k - x.size) := by
    refine address_of ?_ (by omega)
    rw [begins]
    omega
  have forwards : p.expandForwards k 0 x.size x.dq = (p, (x.size : Int)) := if_pos rfl
  have backwards : p.expandBackwards k w.size x.size x.dq = p.setMem x.dq (x.addr - (k - x.size)) := by
    rw [expandBackwards, if_neg (by omega), target]
  have fits : ¬ (0 : Int) + w.size + x.size < k := by omega
  have room : (x.size : Int) < k ∧ (w.size : Int) ≠ 0 := by omega
  have moved : (p.setMem x.dq (x.addr - (k - x.size))).mem x.dq = x.addr - (k - x.size) := update_self ..
  have notLess : ¬ (k : Int) < x.size := by omega
  rw [resizeAlloc_eq (l := l ++ [w]) (regroup ▸ lists) live, if_pos (by omega)]
  simp only [grow, noNext, size, if_neg fits, forwards, if_pos room, backwards, moved, begins, Int.toNat_natCast,
    if_neg notLess]
  rfl

theorem resizeAlloc_grown {grown : MempoolSepmeta} {data' : Nat → Nat} {size : Int}
    (lists : p.Lists (l ++ x :: r) unused)
    (live : x.use = .live) (more : x.size < k) (grows : p.grow data k x.size x.dq = some (grown, data', size))
    (whole : ¬ k < size) : p.resizeAlloc data x.addr k =
      some ({ grown with freemem := grown.freemem + (x.size - k) }, data', (x.size : Int), grown.mem x.dq) := by
  rw [lists.resizeAlloc_eq live, if_pos (by omega), grows]
  simp only [if_neg whole]

theorem expandBackwards_threaded {grown : MempoolSepmeta} {size : Int} (threaded : grown.Threaded (l ++ w :: r) unused)
    (free : w.use = .free) (front : grown.memprev d = w.dq) :
    ∃ w', (grown.expandBackwards k w.size size d).Threaded (l ++ w' :: r) unused := by
  unfold expandBackwards
  split
  · rw [front]
    refine ⟨{ w with use := .loose }, Threaded.dropFree ?_ free⟩
    exact threaded.congr rfl rfl rfl
  · exact ⟨w, threaded.congr rfl rfl rfl⟩

/-- Taking all of the free block behind loses its descriptor, whatever is taken in front. -/
theorem resize_next_all (lists : p.Lists (l ++ x :: y :: r) unused) (live : x.use = .live) (free : y.use = .free)
    (settled : ∀ z ∈ l, z.use ≠ .loose) (more : x.size < k)
    (room : ¬ p.nextmemsize x.dq + p.prevmemsize x.dq + x.size < k) (all : x.size + y.size ≤ k) :
    ∃ p' data' q, p.resizeAlloc data x.addr k = some (p', data', (x.size : Int), q) ∧
      ∃ blocks', p'.Threaded blocks' unused ∧ ∃ z ∈ blocks', z.use = .loose := by
  have regroup : l ++ x :: y :: r = (l ++ [x]) ++ y :: r := by simp
  obtain ⟨memnext, apart, size⟩ := lists.next_free live free
  have positive := (lists.order.within (x := y) (by simp)).2.1
  let joined := (p.setMemnext x.dq (p.memnext y.dq)).setMemprev (p.memnext y.dq) x.dq
  have threaded : joined.Threaded ((l ++ [x]) ++ y :: r) unused :=
    (regroup ▸ lists).threaded.congr rfl rfl rfl
  have dropped := threaded.dropFree free
  have forwards : p.expandForwards k y.size x.size x.dq = (joined.dropFree y.dq, (x.size : Int) + y.size) := by
    have here : (p.setMemnext x.dq (p.memnext y.dq)).memnext x.dq = p.memnext y.dq := update_self ..
    rw [expandForwards, if_neg (by omega), if_pos (by omega), memnext]
    simp only [here]
    rfl
  have loose : ∃ z ∈ (l ++ [x]) ++ { y with use := .loose } :: r, z.use = .loose :=
    ⟨{ y with use := .loose }, by simp, rfl⟩
  rw [size] at room
  by_cases done : (x.size : Int) + y.size = k
  · have grows : p.grow data k x.size x.dq = some (joined.dropFree y.dq, data, (x.size : Int) + y.size) := by
      simp only [grow, size, if_neg room, forwards, done, lt_irrefl, false_and, if_false]
    exact ⟨_, _, _, lists.resizeAlloc_grown live more grows (by omega), _, dropped.congr rfl rfl rfl, loose⟩
  · have front : 0 < p.prevmemsize x.dq := by omega
    obtain ⟨l, w, rfl, freeW⟩ : ∃ l' w, l = l' ++ [w] ∧ w.use = .free := by
      rcases eq_nil_or_concat l with rfl | ⟨l', w, rfl⟩
      · have within := lists.order.within (x := x) (by simp)
        have first := lists.prev_first live
        omega
      · rw [concat_eq_append] at lists settled ⊢
        refine ⟨l', w, rfl, ?_⟩
        by_contra used
        have liveW := live_of_settled (settled w (by simp)) used
        have shape : l' ++ [w] ++ x :: y :: r = l' ++ w :: x :: (y :: r) := by simp
        have zero := prev_used (shape ▸ lists) live liveW
        omega
    have shape : l ++ [w] ++ x :: y :: r = l ++ w :: x :: (y :: r) := by simp
    obtain ⟨memprev, sizeW⟩ := prev_free (shape ▸ lists) live freeW
    have back : (joined.dropFree y.dq).memprev x.dq = w.dq := by
      rw [dropFree_eq]
      have notSelf : x.dq ≠ p.memlinks.next y.dq := by
        have around := (Order.around (regroup ▸ lists.order)).1
        have nodup := lists.complete.memring_nodup
        rw [around]
        intro same
        have inside := after_mem (h := Memdq.memend) (r := r.map Block.dq)
        rw [← same] at inside
        simp only [map_append, map_cons, nodup_cons, nodup_append, mem_cons,
          mem_append] at nodup inside
        rcases inside with last | later
        · exact nodup.1 (by simp [last])
        · exact nodup.2.2.1.1 (.inr later)
      exact (update_of_ne notSelf _ _).trans memprev
    rw [sizeW] at room front
    have dropped' : (joined.dropFree y.dq).Threaded (l ++ w :: (x :: { y with use := .loose } :: r)) unused := by
      simpa using dropped
    obtain ⟨w', threaded'⟩ : ∃ w', (expandBackwards _ k w.size (x.size + y.size) _).Threaded
      (_ ++ w' :: _) _ :=
      expandBackwards_threaded dropped' freeW back
    have grows : p.grow data k x.size x.dq =
      some ((joined.dropFree y.dq).expandBackwards k w.size (x.size + y.size) x.dq,
        copyData data (((joined.dropFree y.dq).expandBackwards k w.size (x.size + y.size) x.dq).mem x.dq)
          ((joined.dropFree y.dq).mem x.dq) x.size, (x.size : Int) + y.size) := by
      have goesOn : (x.size : Int) + y.size < k ∧ (w.size : Int) ≠ 0 := by omega
      simp only [grow, size, sizeW, if_neg room, forwards, if_pos goesOn, Int.toNat_natCast]
    refine ⟨_, _, _, lists.resizeAlloc_grown live more grows (by omega), _, threaded'.congr rfl rfl rfl, ?_⟩
    exact ⟨{ y with use := .loose }, by simp, rfl⟩

theorem resize_prev_all (lists : p.Lists (l ++ w :: x :: r) unused) (live : x.use = .live) (free : w.use = .free)
    (used : ∀ y ∈ r.head?, y.use = .live) (more : x.size < k) (all : k = x.size + w.size) :
    ∃ p' data' q, p.resizeAlloc data x.addr k = some (p', data', (x.size : Int), q) ∧
      ∃ blocks', p'.Threaded blocks' unused ∧ ∃ z ∈ blocks', z.use = .loose := by
  have regroup : l ++ w :: x :: r = (l ++ [w]) ++ x :: r := by simp
  have noNext : p.nextmemsize x.dq = 0 := (next_used (regroup ▸ lists) live used).2
  obtain ⟨memprev, size⟩ := lists.prev_free live free
  have forwards : p.expandForwards k 0 x.size x.dq = (p, (x.size : Int)) := if_pos rfl
  have fits : ¬ (0 : Int) + w.size + x.size < k := by omega
  have room : (x.size : Int) < k ∧ (w.size : Int) ≠ 0 := by omega
  let joined := ((p.setMemprev x.dq (p.memprev w.dq)).setMemnext (p.memprev w.dq) x.dq).setMem x.dq (p.mem w.dq)
  have threaded : joined.Threaded (l ++ w :: x :: r) unused := lists.threaded.congr rfl rfl rfl
  have backwards : p.expandBackwards k w.size x.size x.dq = joined.dropFree w.dq := by
    have here : (p.setMemprev x.dq (p.memprev w.dq)).memprev x.dq = p.memprev w.dq := update_self ..
    rw [expandBackwards, if_pos (by omega), memprev]
    simp only [here]
    rfl
  have grows : p.grow data k x.size x.dq = some (joined.dropFree w.dq,
      copyData data ((joined.dropFree w.dq).mem x.dq) (p.mem x.dq) x.size, (x.size : Int)) := by
    simp only [grow, noNext, size, if_neg fits, forwards, if_pos room, backwards, Int.toNat_natCast]
  refine ⟨_, _, _, resizeAlloc_grown (l := l ++ [w]) (regroup ▸ lists) live more grows (by omega), _,
    (threaded.dropFree free).congr rfl rfl rfl, ?_⟩
  exact ⟨{ w with use := .loose }, by simp, rfl⟩

theorem findFreeDqSlot_congr (closed : ∀ d, S d → S (p.next d))
    (same : ∀ d, S d → p'.mem d = p.mem d ∧ p'.next d = p.next d) (begins : S d) :
    p'.findFreeDqSlot place fuel d = p.findFreeDqSlot place fuel d := by
  induction fuel generalizing d with
  | zero => rfl
  | succ fuel ih =>
    obtain ⟨mem, next⟩ := same d begins
    simp only [MempoolSepmeta.findFreeDqSlot, mem, next]
    rw [ih (closed d begins)]

/-- Shrinking in front of an allocated block: the rest goes on the free list,
and the mem list does not come to know of it. -/
theorem shrink_orphan (lists : p.Lists (l ++ x :: r) unused) (live : x.use = .live) (positive : 0 < k)
    (less : k < x.size)
    (used : ∀ y ∈ r.head?, y.use = .live) (spare : p.freemetahead ≠ .null) (below : p.top < 2 ^ 32) :
    ∃ p' rest, p.shrink k x.size x.dq = some (p', true) ∧ unused = p.freemetahead :: rest ∧
      p'.Threaded ((l ++ [x]) ++ ⟨⟨x.addr + k, x.size - k, .free⟩, p.freemetahead⟩ :: r) rest ∧
      p'.memlinks.IsRing (.memend :: (l ++ x :: r).map Block.dq) ∧ p'.mem x.dq = x.addr := by
  have regroup : l ++ x :: r = (l ++ [x]) ++ r := by simp
  have same := (lists.next_used live used).1
  have begins := lists.order.mems x (by simp)
  have limit := lists.address_small (x := x) below (by simp)
  let new : Block := ⟨⟨x.addr + k, x.size - k, .loose⟩, p.freemetahead⟩
  obtain ⟨rest, shape, popped⟩ := MetaThreads.pop (y := new) (regroup ▸ lists.threads) spare rfl rfl
  have complete := lists.complete
  rw [shape, regroup] at complete
  have complete' : Complete p.descriptors ((l ++ [x]) ++ new :: r) rest := complete.pop rfl
  have fresh : ∀ z ∈ l ++ x :: r, z.dq ≠ p.freemetahead := by
    intro z member same
    have once := lists.complete.nodup_iff.mpr (everyMemdq_nodup _)
    rw [shape] at once
    exact (nodup_append.mp once).2.2 _ (mem_map_of_mem member) _ (mem_cons_self ..) same
  have proper := lists.complete.proper (d := p.freemetahead) (by simp [shape])
  -- what `shrink` hands to `insert_free_block`
  let p1 : MempoolSepmeta := { p with
    freemetahead := p.next p.freemetahead
    memlinks :=
      { next := update p.memlinks.next p.freemetahead (p.memnext x.dq)
        prev := update p.memlinks.prev p.freemetahead x.dq }
    mem := update p.mem p.freemetahead (x.addr + k) }
  have target : address ((p.mem x.dq : Int) + k) = x.addr + k := by
    refine address_of ?_ (by omega)
    rw [begins]
    rfl
  have slot : p1.findFreeDqSlot (p1.mem p.freemetahead) p1.longest (p1.next .freehead) =
      some (after .freehead (dqs .free r)) := by
    have place : p1.mem p.freemetahead = x.addr + k := update_self ..
    have first : p.next .freehead = after .freehead (dqs .free (l ++ x :: r)) :=
      (Ring.Nodes.IsRing.between (l := []) lists.threads.free).1
    have fewer : (dqs .free l).length < p.longest := by
      have bound := lists.length_le
      have short := dqs_length_le .free l
      simp only [length_append, length_cons] at bound
      unfold longest
      omega
    have sought : p.findFreeDqSlot (x.addr + k) _ _ = _ :=
      findFreeDqSlot (l := []) lists (by simp [live]) (by omega) (by omega) fewer
    rw [place, ← sought, ← first]
    refine findFreeDqSlot_congr (S := (· ∈ freeRing (l ++ x :: r))) (fun d member => lists.threads.free.next_mem member)
      (fun d member => ⟨?_, rfl⟩) (lists.threads.free.next_mem (mem_cons_self ..))
    refine update_of_ne ?_ _ _
    exact lists.complete.free_unused member (by simp [shape])
  have sameRing : freeRing ((l ++ [x]) ++ new :: r) = freeRing (l ++ x :: r) := by
    simp [freeRing, dqs_append, dqs_cons, new, live]
  have offFree : p.freemetahead ∉ freeRing (l ++ x :: r) := by
    have off := (complete'.loose_apart (x := new) (by simp) rfl).1
    rw [sameRing] at off
    exact off
  have target' : after .freehead (dqs .free r) ∈ freeRing (l ++ x :: r) := by
    rw [freeRing_skip (by simp [live])]
    have inside := after_mem (h := Memdq.freehead) (r := dqs .free r)
    simp only [mem_cons, mem_append] at inside ⊢
    tauto
  have notNext : ¬ p1.memnext p.freemetahead = after .freehead (dqs .free r) := by
    have here : p1.memnext p.freemetahead = p.next x.dq := (update_self ..).trans same.symm
    rw [here]
    exact fun eq => lists.complete.free_alloced target' (lists.next_mem_allocedRing live) eq.symm
  let p2 : MempoolSepmeta := { p1 with links := p.links.insert (after .freehead (dqs .free r)) p.freemetahead }
  have joined : p1.joinNext p.freemetahead (after .freehead (dqs .free r)) = (p2, p.freemetahead) := by
    have apart : after .freehead (dqs .free r) ≠ p.freemetahead := fun eq => offFree (eq ▸ target')
    unfold joinNext
    rw [if_neg notNext]
    simp [p2, p1, setNext, setPrev, prev, Ring.Nodes.insert, apart, apart.symm]
  have stays : p2.joinPrev p.freemetahead = p2 := by
    refine if_neg ?_
    have back : p2.memprev p.freemetahead = x.dq := update_self ..
    have front : p2.prev p.freemetahead = p.links.prev (after .freehead (dqs .free r)) := by
      have apart : after .freehead (dqs .free r) ≠ p.freemetahead := fun eq => offFree (eq ▸ target')
      simp [p2, prev, Ring.Nodes.insert, apart.symm]
    rw [back, front]
    exact fun eq => lists.complete.free_alloced (lists.threads.free.prev_mem target') (dq_mem_allocedRing live) eq.symm
  refine ⟨p2, rest, ?_, shape, ⟨?_, complete'.reuse rfl⟩, ?_, ?_⟩
  · have inserted : p1.insertFreeBlock p.freemetahead = some p2 := by
      rw [MempoolSepmeta.insertFreeBlock, slot]
      simp only [Option.map_some, joined, stays]
    have handed : (((({ p with freemetahead := p.next p.freemetahead } : MempoolSepmeta).setMemprev p.freemetahead
        x.dq).setMemnext p.freemetahead (p.memnext x.dq)).setMem p.freemetahead (address ((p.mem x.dq : Int) + k))) =
          p1 := by
      rw [target]
      rfl
    simp only [shrink, same, ne_eq, not_true_eq_false, if_false, if_neg spare]
    refine (congrArg (fun q : MempoolSepmeta => (q.insertFreeBlock p.freemetahead).map (·, true)) handed).trans ?_
    simp only [inserted, Option.map_some]
  · have inserted := popped.insert_free complete' rfl
    exact inserted.resize rfl rfl
  · refine lists.order.ring.congr (fun d member => ?_) fun d member => ?_
    all_goals
      refine update_of_ne ?_ _ _
      rcases mem_cons.mp member with rfl | listed
      · exact proper.2.2.2.symm
      · obtain ⟨z, inside, rfl⟩ := mem_map.mp listed
        exact fresh z inside
  · exact (update_of_ne (fresh x (by simp)) _ _).trans begins

end Lists

/-- Where resizing goes as it should: nothing changes, or the rest of a shrunk
block joins a free block behind it, or nothing is done for want of a descriptor;
growth is refused, or takes a part of the free block behind, or, where there is
none, a part of the one in front that is made of whole units. -/
def Resizable (p : MempoolSepmeta) (newsize : Int) (dq : Memdq) : Prop :=
  newsize = p.currsize dq ∨
  newsize < p.currsize dq ∧ (p.memnext dq ≠ p.next dq ∨ p.freemetahead = .null) ∨
  p.currsize dq < newsize ∧
    (p.nextmemsize dq + p.prevmemsize dq + p.currsize dq < newsize ∨
      newsize - p.currsize dq < p.nextmemsize dq ∨
      p.nextmemsize dq = 0 ∧ newsize - p.currsize dq < p.prevmemsize dq ∧ (p.alignment : Int) ∣ newsize - p.currsize dq)

instance {newsize : Int} : Decidable (p.Resizable newsize d) := inferInstanceAs (Decidable (_ ∨ _))

end MempoolSepmeta

inductive SepmetaCall
  | ask (e : SepmetaEvent)
  | resize (ptr newsize : Nat)

namespace SepmetaHeap
variable {h : SepmetaHeap} {e : SepmetaEvent} {c : SepmetaCall} {l r blocks : List Block} {x y w : Block}
  {alloced unused : List Memdq} {data data' : Nat → Nat} {pool : MempoolSepmeta}
  {k n s b ptr q base size alignment metabase metasize : Nat}

/-- What a call does to the pool; the data in memory makes no difference to it. -/
def call (h : SepmetaHeap) : SepmetaCall → SepmetaHeap
  | .ask e => h.serve e
  | .resize ptr newsize =>
    match h.pool.resizeAlloc (fun _ => 0) ptr newsize with
    | none => h
    | some (pool, _, _, q) =>
      { pool, live := if q = null then h.live else h.live.map fun held => if held = ptr then q else held }

/-- What is said of a resized allocation: the address is aligned and its block
large enough, the data is kept, the other allocations are as they were, and
every descriptor is accounted for. -/
structure Moved (h : SepmetaHeap) (alloced : List Memdq) (data : Nat → Nat) (ptr newsize : Nat) (pool : MempoolSepmeta)
    (data' : Nat → Nat) (q : Nat) (blocks alloced' free' unused' : List Memdq) : Prop where
  accounted : pool.Accounted blocks alloced' free' unused'
  aligned : h.pool.alignment ∣ q
  large : ∃ d ∈ alloced', pool.mem d = q ∧ newsize ≤ pool.extent d
  kept : ∀ d ∈ alloced, h.pool.mem d = ptr → ∀ i < h.pool.extent d, i < newsize → data' (q + i) = data (ptr + i)
  others : ∀ d ∈ alloced, h.pool.mem d ≠ ptr → d ∈ alloced' ∧ pool.mem d = h.pool.mem d ∧
    pool.extent d = h.pool.extent d ∧ ∀ i < h.pool.extent d, data' (h.pool.mem d + i) = data (h.pool.mem d + i)

/-- `resize_alloc` returns NULL and changes nothing, or resizes the allocation. -/
def Resizes (h : SepmetaHeap) (alloced : List Memdq) (data : Nat → Nat) (ptr newsize : Nat) : Prop :=
  ∃ pool data' oldsize q, h.pool.resizeAlloc data ptr newsize = some (pool, data', oldsize, q) ∧
    (q = null ∧ pool = h.pool ∧ data' = data ∨
      q ≠ null ∧ ∃ blocks alloced' free' unused',
        h.Moved alloced data ptr newsize pool data' q blocks alloced' free' unused')

def Resizable (h : SepmetaHeap) (ptr newsize : Nat) : Prop :=
  match h.pool.findAllocedDq ptr h.pool.longest (h.pool.next .allocedhead) with
  | none => False
  | some dq => h.pool.Resizable newsize dq

instance : Decidable (h.Resizable ptr n) := by
  unfold Resizable
  split
  · exact inferInstanceAs (Decidable False)
  · infer_instance

def Calls (h : SepmetaHeap) : SepmetaCall → Prop
  | .ask e => h.Asks e
  | .resize ptr newsize => ptr ∈ h.live ∧ 0 < newsize ∧ newsize < 2 ^ 31 ∧ h.Resizable ptr newsize

instance : Decidable (h.Calls c) :=
  match c with
  | .ask e => inferInstanceAs (Decidable (h.Asks e))
  | .resize _ _ => inferInstanceAs (Decidable (_ ∧ _ ∧ _ ∧ _))

/-- The pool over its blocks, with allocations at whole units. -/
structure Standing (h : SepmetaHeap) (blocks : List Block) (unused : List Memdq) : Prop where
  inv : Inv h blocks unused
  grounds : h.pool.Grounds
  aligned : ∀ ptr ∈ h.live, h.pool.alignment ∣ ptr
  alive : h.pool.bottom = null → h.live = []

theorem Sound.accounted {free mem : List Memdq} (sound : h.Sound mem alloced free unused) :
    h.pool.Accounted mem alloced free unused where
  memlist := sound.memlist
  tiles := sound.tiles
  allocedlist := sound.allocedlist
  freelist := sound.freelist
  unusedlist := sound.unusedlist
  every := sound.every
  exactly := sound.exactly

section Standing
variable (standing : Standing h (l ++ x :: r) unused)
include standing

theorem Standing.nonnull (live : x.use = .live) : x.addr ≠ null := by
  have held := standing.inv.live_of_block (x := x) (by simp) live
  have within := standing.inv.lists.order.within (x := x) (by simp)
  intro zero
  have bottom : h.pool.bottom = null := by
    have : null = 0 := rfl
    omega
  rw [standing.alive bottom] at held
  cases held

theorem Standing.live_aligned (live : x.use = .live) : h.pool.alignment ∣ x.addr :=
  standing.aligned _ (standing.inv.live_of_block (by simp) live)

theorem Standing.free_end (free : x.use = .free) : h.pool.alignment ∣ x.addr + x.size := by
  have tiles := standing.inv.lists.order.tiles
  simp only [map_append, map_cons] at tiles
  obtain ⟨_, _, right⟩ := tiles_append.mp tiles
  cases r with
  | nil =>
    rw [show x.addr + x.size = h.pool.top from right]
    exact standing.grounds.top
  | cons y r =>
    have live : y.use = .live := by
      refine Lists.live_of_settled (standing.inv.settled y (by simp)) fun freeY => ?_
      have chain := standing.inv.coalesced
      simp only [pieces, map_append, map_cons] at chain
      exact ((isChain_append.mp chain).2.1.rel_head? rfl) ⟨free, freeY⟩
    have here : y.addr = x.addr + x.size := right.1
    rw [← here]
    exact standing.aligned _ (standing.inv.live_of_block (by simp) live)

end Standing

theorem roundsize_dvd (power : ∃ k ≤ 30, h.pool.alignment = 2 ^ k) (sane : s + h.pool.alignment ≤ 2 ^ 31) :
    h.pool.alignment ∣ h.pool.roundsize s := by
  obtain ⟨k, small, value⟩ := power
  rw [value] at sane
  rw [roundsize, value, alignup_spec small (by omega)]
  exact dvd_mul_left _ _

theorem Standing.serve (standing : Standing h blocks unused) (asks : h.Asks e) :
    ∃ blocks' unused', Standing (h.serve e) blocks' unused' := by
  obtain ⟨inv, grounds, aligned, alive⟩ := standing
  rcases inv.serve_eq grounds asks with same | ⟨ok, same, grounds', arena⟩
  · rw [same]
    exact ⟨_, _, inv, grounds, aligned, alive⟩
  rw [same]
  have unit : (h.act e).pool.alignment = h.pool.alignment := congrArg (fun a => a.2.2.1) arena
  have bottom : (h.act e).pool.bottom = h.pool.bottom := congrArg Prod.fst arena
  cases e with
  | tryAlloc n =>
    rcases inv.tryAlloc_cases ok with declined | ⟨l, x, r, pool, rfl, free, fits, takes, place, _, blocks', unused',
      inv'⟩
    · have state : h.act (.tryAlloc n) = h := by
        simp [act, declined]
      rw [state]
      exact ⟨_, _, inv, grounds, aligned, alive⟩
    have state : h.act (.tryAlloc n) = ⟨pool, (x.addr + (x.size - h.pool.roundsize n)) :: h.live⟩ := by
      simp only [act, takes, if_neg place]
    rw [state] at grounds' unit bottom ⊢
    refine ⟨blocks', unused', inv', grounds', ?_, ?_⟩
    · intro ptr member
      rw [unit]
      rcases mem_cons.mp member with rfl | old
      · have ends := Standing.free_end ⟨inv, grounds, aligned, alive⟩ free
        have sum : x.addr + (x.size - h.pool.roundsize n) = x.addr + x.size - h.pool.roundsize n := by omega
        rw [sum]
        exact dvd_sub ends (roundsize_dvd inv.power ok.2.1)
      · exact aligned ptr old
    · intro zero
      rw [bottom] at zero
      have dead : h.pool.tryAlloc n = some (h.pool, null) := if_pos (.inl zero)
      rw [dead] at takes
      exact absurd (congrArg Prod.snd (Option.some.inj takes)).symm place
  | free ptr s =>
    obtain ⟨blocks', unused', inv'⟩ := (inv.free ok).1
    have fewer : ∀ held ∈ (h.act (.free ptr s)).live, held ∈ h.live := by
      intro held member
      simp only [act] at member
      split at member
      · exact member
      · split at member
        · exact mem_of_mem_filter member
        · exact member
    refine ⟨blocks', unused', inv', grounds', fun held member => ?_, fun zero => ?_⟩
    · rw [unit]
      exact aligned held (fewer held member)
    · rw [bottom] at zero
      refine eq_nil_iff_forall_not_mem.mpr fun held member => ?_
      have old := fewer held member
      rw [alive zero] at old
      cases old

theorem coalesced_of_uses {blocks' : List Block} (coalesced : Coalesced (MempoolSepmeta.pieces blocks))
    (uses : blocks'.map (·.use) = blocks.map (·.use)) : Coalesced (MempoolSepmeta.pieces blocks') := by
  have through : ∀ blocks : List Block, Coalesced (pieces blocks) ↔
      (blocks.map (·.use)).IsChain fun a b => ¬ (a = .free ∧ b = .free) := by
    intro blocks
    unfold Coalesced pieces
    rw [isChain_map, isChain_map]
  rw [through, uses]
  exact (through blocks).mp coalesced

theorem Standing.moved {x' y' : Block} (standing : Standing h (l ++ x :: y :: r) unused) (delta : Int) (ptr : Nat)
    (lists : (h.pool.setMem y.dq b).Lists (l ++ x' :: y' :: r) unused) (useX : x'.use = x.use) (useY : y'.use = y.use)
    (bytes : (freeBytes (MempoolSepmeta.pieces (l ++ x' :: y' :: r)) : Int) =
      freeBytes (MempoolSepmeta.pieces (l ++ x :: y :: r)) + delta)
    (owns : (h.live.map fun held => if held = ptr then q else held).Perm
      ((usedPieces (MempoolSepmeta.pieces (l ++ x' :: y' :: r))).map Piece.addr))
    (unit : h.pool.alignment ∣ q) :
    Standing ⟨{ h.pool.setMem y.dq b with freemem := h.pool.freemem + delta },
      h.live.map fun held => if held = ptr then q else held⟩ (l ++ x' :: y' :: r) unused := by
  obtain ⟨inv, grounds, aligned, alive⟩ := standing
  have settled : ∀ z ∈ l ++ x' :: y' :: r, z.use ≠ .loose := by
    intro z member
    simp only [mem_append, mem_cons] at member
    rcases member with left | rfl | rfl | right
    · exact inv.settled z (by simp [left])
    · rw [useX]
      exact inv.settled x (by simp)
    · rw [useY]
      exact inv.settled y (by simp)
    · exact inv.settled z (by simp [right])
  have chain : Coalesced (pieces (l ++ x' :: y' :: r)) :=
    coalesced_of_uses inv.coalesced (by simp [useX, useY])
  have total := inv.freemem
  refine ⟨⟨⟨lists.order, lists.threads, lists.complete, lists.small⟩, chain, settled, ?_, owns, inv.power⟩, ?_, ?_, ?_⟩
  · simp only [total, bytes]
  · refine grounds.kept rfl fun d head => ⟨rfl, update_of_ne ?_ _ _⟩
    have proper := inv.lists.complete.dq_proper (x := y) (by simp)
    rcases head with rfl | rfl
    · exact proper.2.1.symm
    · exact proper.2.2.1.symm
  · intro held member
    obtain ⟨old, inside, rfl⟩ := mem_map.mp member
    split
    · exact unit
    · exact aligned old inside
  · intro zero
    rw [alive zero]
    rfl

theorem replaced_self (held : List Nat) : held.map (fun a => if a = ptr then ptr else a) = held := by
  rw [map_congr_left (g := id) fun a _ => ?_, map_id]
  split
  · next same => exact same.symm
  · rfl

theorem Standing.moveNext (standing : Standing h (l ++ x :: y :: r) unused) (live : x.use = .live)
    (free : y.use = .free)
    (positive : 0 < k) (part : k < x.size + y.size) :
    Standing ⟨{ h.pool.setMem y.dq (x.addr + k) with freemem := h.pool.freemem + (x.size - k) }, h.live⟩
      (l ++ { x with size := k } :: { y with addr := x.addr + k, size := y.addr + y.size - (x.addr + k) } ::
        r) unused := by
  have inv := standing.inv
  have here := inv.lists.neighbours
  have lists := inv.lists.moveBoundary (b := x.addr + k) (by omega) (by omega)
  rw [Nat.add_sub_cancel_left] at lists
  have moved := standing.moved (x.size - k) x.addr (q := x.addr) lists rfl rfl ?_ ?_ ?_
  · rw [replaced_self] at moved
    exact moved
  · simp only [pieces, map_append, map_cons, freeBytes_append, freeBytes_cons, live, free,
      reduceCtorEq, if_false, if_true]
    omega
  · rw [replaced_self]
    have owns := inv.owns
    simp only [pieces, map_append, map_cons, usedPieces_append, usedPieces_cons, live, free,
      reduceCtorEq, if_false, if_true] at owns ⊢
    exact owns
  · exact standing.aligned _ (inv.live_of_block (by simp) live)

theorem Standing.movePrev (standing : Standing h (l ++ w :: x :: r) unused) (live : x.use = .live)
    (free : w.use = .free)
    (more : x.size < k) (part : k < x.size + w.size) (unit : h.pool.alignment ∣ x.addr - (k - x.size)) :
    Standing ⟨{ h.pool.setMem x.dq (x.addr - (k - x.size)) with freemem := h.pool.freemem + (x.size - k) },
        h.live.map fun held => if held = x.addr then x.addr - (k - x.size) else held⟩
      (l ++ { w with size := x.addr - (k - x.size) - w.addr } ::
        { x with addr := x.addr - (k - x.size), size := x.addr + x.size - (x.addr - (k - x.size)) } :: r) unused := by
  have inv := standing.inv
  have tiles := inv.lists.order.tiles
  have here := inv.lists.neighbours
  have lists := inv.lists.moveBoundary (b := x.addr - (k - x.size)) (by omega) (by omega)
  refine standing.moved (x.size - k) _ lists rfl rfl ?_ ?_ unit
  · simp only [pieces, map_append, map_cons, freeBytes_append, freeBytes_cons, live, free,
      reduceCtorEq, if_false, if_true]
    omega
  · have regroup : l ++ w :: x :: r = (l ++ [w]) ++ x :: r := by simp
    have split := usedPieces_split (l := l ++ [w]) (r := r) live
    rw [← regroup] at split
    obtain ⟨_, fresh⟩ := Heap.usedPieces_middle tiles split
    have owns := inv.owns
    rw [split, map_append, map_cons] at owns
    have mapped := owns.map fun held => if held = x.addr then x.addr - (k - x.size) else held
    have fixed : ∀ part : List Piece, (∀ z ∈ usedPieces part, z.addr ≠ x.addr) →
        ((usedPieces part).map Piece.addr).map (fun held => if held = x.addr then x.addr - (k - x.size) else held) =
          (usedPieces part).map Piece.addr := by
      intro part others
      rw [map_map]
      exact map_congr_left fun z member => if_neg (others z member)
    rw [map_append, map_cons, if_pos rfl] at mapped
    rw [fixed _ fun z member same => fresh ?_, fixed _ fun z member same => fresh ?_] at mapped
    · refine mapped.trans (Perm.of_eq ?_)
      simp [pieces, usedPieces, live, free]
    · rw [usedPieces_append, map_append, ← same]
      exact mem_append_right _ (mem_map_of_mem member)
    · rw [usedPieces_append, map_append, ← same]
      exact mem_append_left _ (mem_map_of_mem member)

/-- The ways a resize can go. -/
theorem Standing.resize_cases (standing : Standing h (l ++ x :: r) unused) (live : x.use = .live) (positive : 0 < k) :
    (h.pool.Resizable k x.dq ∧
      ∀ data, h.pool.resizeAlloc data x.addr k = some (h.pool, data, (x.size : Int), null)) ∨
    k = x.size ∨
    (∃ y r', r = y :: r' ∧ y.use = .free ∧ k < x.size + y.size ∧ h.pool.Resizable k x.dq ∧
      ∀ data, h.pool.resizeAlloc data x.addr k =
        some ({ h.pool.setMem y.dq (x.addr + k) with freemem := h.pool.freemem + (x.size - k) }, data,
          (x.size : Int), x.addr)) ∨
    (∃ l' w, l = l' ++ [w] ∧ w.use = .free ∧ x.size < k ∧ k < x.size + w.size ∧
      (h.pool.Resizable k x.dq ↔ h.pool.alignment ∣ k - x.size) ∧
      ∀ data, h.pool.resizeAlloc data x.addr k =
        some ({ h.pool.setMem x.dq (x.addr - (k - x.size)) with freemem := h.pool.freemem + (x.size - k) },
          copyData data (x.addr - (k - x.size)) x.addr x.size, (x.size : Int), x.addr - (k - x.size))) ∨
    (¬ h.pool.Resizable k x.dq ∧ ∀ data, ∃ pool data' q,
      h.pool.resizeAlloc data x.addr k = some (pool, data', (x.size : Int), q) ∧
        ¬ ∃ mem alloced free rest, pool.Accounted mem alloced free rest) := by
  have lists := standing.inv.lists
  have settled := standing.inv.settled
  have below := standing.grounds.below
  have current := lists.currsize_eq
  have behind : (∃ y r', r = y :: r' ∧ y.use = .free) ∨ ∀ y ∈ r.head?, y.use = .live := by
    by_cases free : ∃ y r', r = y :: r' ∧ y.use = .free
    · exact .inl free
    · refine .inr fun y first => ?_
      obtain ⟨r', rfl⟩ := List.head?_eq_some_iff.mp first
      exact Lists.live_of_settled (settled y (by simp)) fun freeY => free ⟨y, r', rfl, freeY⟩
  rcases lt_trichotomy k x.size with less | same | more
  · rcases behind with ⟨y, r', rfl, free⟩ | used
    · obtain ⟨_, apart, _⟩ := lists.next_free live free
      refine .inr (.inr (.inl ⟨y, r', rfl, free, by omega, .inr (.inl ⟨by omega, .inl apart.symm⟩),
        fun data => ?_⟩))
      exact lists.resize_next live free below (.inl less)
    · have same := (lists.next_used live used).1
      by_cases spent : h.pool.freemetahead = .null
      · exact .inl ⟨.inr (.inl ⟨by omega, .inr spent⟩), fun data => lists.resize_spent live less used spent⟩
      · refine .inr (.inr (.inr (.inr ⟨?_, fun data => ?_⟩)))
        · rintro (whole | ⟨_, apart | none⟩ | ⟨more, _⟩)
          · omega
          · exact apart same.symm
          · exact spent none
          · omega
        · obtain ⟨pool, rest, shrinks, shape, threaded, ring, begins⟩ :=
            lists.shrink_orphan live positive less used spent below
          have smaller : ¬ (k : Int) > x.size := by omega
          have smaller' : (k : Int) < x.size := by omega
          refine ⟨{ pool with freemem := pool.freemem + (x.size - k) }, data, pool.mem x.dq, ?_, ?_⟩
          · rw [lists.resizeAlloc_eq live, if_neg smaller]
            simp only [if_pos smaller', shrinks]
          · refine Threaded.orphan (threaded.congr rfl rfl rfl) ring (d := h.pool.freemetahead) ?_ ?_ ?_
            · exact mem_dqs.mpr ⟨_, mem_append_right _ (mem_cons_self ..), rfl, rfl⟩
            · have once := lists.complete.nodup_iff.mpr (everyMemdq_nodup _)
              rw [shape] at once
              exact fun member => (nodup_append.mp once).2.2 _ member _ (mem_cons_self ..) rfl
            · exact (nodup_cons.mp lists.complete.memring_nodup).1
  · exact .inr (.inl same)
  · by_cases room : h.pool.nextmemsize x.dq + h.pool.prevmemsize x.dq + x.size < k
    · refine .inl ⟨.inr (.inr ⟨by omega, .inl ?_⟩), fun data => lists.resize_refused live more room⟩
      rw [current]
      exact room
    · rcases behind with ⟨y, r', rfl, free⟩ | used
      · obtain ⟨_, _, size⟩ := lists.next_free live free
        by_cases part : k < x.size + y.size
        · refine .inr (.inr (.inl ⟨y, r', rfl, free, part, .inr (.inr ⟨by omega, .inr (.inl ?_)⟩),
          fun data => ?_⟩))
          · omega
          · exact lists.resize_next live free below (.inr ⟨more, room, part⟩)
        · have positive' := (lists.order.within (x := y) (by simp)).2.1
          refine .inr (.inr (.inr (.inr ⟨?_, fun data => ?_⟩)))
          · rintro (whole | ⟨less, _⟩ | ⟨_, none | part' | ⟨none, _⟩⟩) <;> omega
          · obtain ⟨pool, data', q, result, blocks', threaded, z, member, loose⟩ :=
              lists.resize_next_all live free (fun z inside => settled z (by simp [inside])) more room (by omega)
            exact ⟨pool, data', q, result, threaded.lost member loose⟩
      · have noNext := (lists.next_used live used).2
        rcases eq_nil_or_concat l with rfl | ⟨l', w, rfl⟩
        · have first := lists.prev_first live
          have grounds := standing.grounds.room
          omega
        · rw [concat_eq_append] at *
          have shape : l' ++ [w] ++ x :: r = l' ++ w :: x :: r := by simp
          by_cases free : w.use = .free
          · obtain ⟨_, size⟩ := Lists.prev_free (shape ▸ lists) live free
            by_cases part : k < x.size + w.size
            · refine .inr (.inr (.inr (.inl ⟨l', w, rfl, free, more, part, ?_, fun data => ?_⟩)))
              · have cast : ((k - x.size : Nat) : Int) = k - x.size := by omega
                rw [← Int.natCast_dvd_natCast, cast]
                constructor
                · rintro (whole | ⟨less, _⟩ | ⟨_, none | part' | ⟨_, _, units⟩⟩)
                  all_goals first | omega | skip
                  rw [current] at units
                  exact units
                · intro units
                  refine .inr (.inr ⟨by omega, .inr (.inr ⟨noNext, by omega, ?_⟩)⟩)
                  rw [current]
                  exact units
              · exact Lists.resize_prev (shape ▸ lists) live free used below more part
            · refine .inr (.inr (.inr (.inr ⟨?_, fun data => ?_⟩)))
              · rintro (whole | ⟨less, _⟩ | ⟨_, none | part' | ⟨_, part', _⟩⟩) <;> omega
              · obtain ⟨pool, data', q, result, blocks', threaded, z, member, loose⟩ :=
                  Lists.resize_prev_all (shape ▸ lists) live free used more (by omega)
                exact ⟨pool, data', q, result, threaded.lost member loose⟩
          · have zero := Lists.prev_used (shape ▸ lists) live (Lists.live_of_settled (settled w (by simp)) free)
            omega

theorem Standing.prev_nonnull (standing : Standing h (l ++ w :: x :: r) unused) (held : ptr ∈ h.live)
    (part : k < x.size + w.size) : x.addr - (k - x.size) ≠ null := by
  have alive := mt standing.alive (ne_nil_of_mem held)
  have within := standing.inv.lists.order.within (x := w) (by simp)
  have here := standing.inv.lists.neighbours
  simp only [null] at alive ⊢
  omega

theorem Inv.moved_of {live' : List Nat} {blocks' : List Block} {unused' : List Memdq} (inv : Inv h blocks unused)
    (inv' : Inv ⟨pool, live'⟩ blocks' unused') (unit : h.pool.alignment ∣ q) (member : x ∈ blocks') (live : x.use =
      .live)
    (here : x.addr = q) (large : k ≤ x.size)
    (copied : ∀ z ∈ blocks, z.use = .live → z.addr = ptr → ∀ i < z.size, i < k → data' (q + i) = data (ptr + i))
    (kept : ∀ z ∈ blocks, z.use = .live → z.addr ≠ ptr →
      z ∈ blocks' ∧ ∀ i < z.size, data' (z.addr + i) = data (z.addr + i)) :
    ∃ mem alloced' free' rest, h.Moved (dqs .live blocks) data ptr k pool data' q mem alloced' free' rest := by
  refine ⟨_, _, _, _, inv'.sound.accounted, unit, ⟨x.dq, mem_dqs.mpr ⟨x, member, live, rfl⟩, ?_, ?_⟩, ?_, ?_⟩
  · exact (inv'.lists.order.mems x member).trans here
  · rw [show pool.extent x.dq = x.size from inv'.sizes member]
    exact large
  · intro d listed start
    obtain ⟨z, inside, liveZ, rfl⟩ := mem_dqs.mp listed
    rw [inv.lists.order.mems z inside] at start
    rw [inv.sizes inside]
    exact copied z inside liveZ start
  · intro d listed start
    obtain ⟨z, inside, liveZ, rfl⟩ := mem_dqs.mp listed
    have begins := inv.lists.order.mems z inside
    rw [begins] at start ⊢
    rw [inv.sizes inside]
    obtain ⟨stays, same⟩ := kept z inside liveZ start
    exact ⟨mem_dqs.mpr ⟨z, stays, liveZ, rfl⟩, inv'.lists.order.mems z stays, inv'.sizes stays, same⟩

theorem copyData_off {dst src nbytes a : Nat}
    (off : ¬ (dst ≤ a ∧ a < dst + nbytes)) : copyData data dst src nbytes a = data a :=
  if_neg off

theorem copyData_at {dst src nbytes i : Nat} (inside : i < nbytes) : copyData data dst src nbytes (dst + i) = data
    (src + i) := by
  rw [copyData, if_pos ⟨by omega, by omega⟩, Nat.add_sub_cancel_left]

theorem resizable_at (inv : Inv h (l ++ x :: r) unused) (live : x.use = .live) :
    h.Resizable x.addr k ↔ h.pool.Resizable k x.dq := by
  unfold Resizable
  rw [inv.lists.findAllocedDq_head live]

theorem Inv.block_eq (inv : Inv h blocks unused) (left : x ∈ blocks) (right : y ∈ blocks)
    (same : x.addr = y.addr) : x = y := by
  have tiles := tiles_map.mp inv.lists.order.tiles
  have positive := (inv.lists.order.within left).2.1
  have positive' := (inv.lists.order.within right).2.1
  rcases tiles.apart left right with eq | before | after
  · exact eq
  · simp only [comp_apply] at before
    omega
  · simp only [comp_apply] at after
    omega

/-- Resizing is right exactly where the neighbours leave it one of the ways that are. -/
theorem Standing.resizes_iff (standing : Standing h blocks unused) (held : ptr ∈ h.live) (positive : 0 < k) :
    h.Resizes (dqs .live blocks) data ptr k ↔ h.Resizable ptr k := by
  obtain ⟨l, x, r, rfl, live, rfl⟩ := standing.inv.held held
  have inv := standing.inv
  rw [resizable_at inv live]
  rcases standing.resize_cases live positive with ⟨fine, result⟩ | rfl | ⟨y, r, rfl, free, part, fine, result⟩ |
    ⟨l, w, rfl, free, more, part, fine, result⟩ | ⟨wrong, result⟩
  · exact iff_of_true ⟨_, _, _, _, result data, .inl ⟨rfl, rfl, rfl⟩⟩ fine
  · refine iff_of_true ⟨_, _, _, _, inv.lists.resize_same live, .inr ⟨standing.nonnull live, ?_⟩⟩ (.inl ?_)
    · exact inv.moved_of inv (standing.live_aligned live) (x := x) (by simp) live rfl le_rfl
        (fun _ _ _ _ _ _ _ => rfl) fun z member _ _ => ⟨member, fun _ _ => rfl⟩
    · exact inv.lists.currsize_eq.symm
  · refine iff_of_true ⟨_, _, _, _, result data, .inr ⟨standing.nonnull live, ?_⟩⟩ fine
    have standing' := standing.moveNext live free positive part
    refine inv.moved_of standing'.inv (standing.live_aligned live) (x := { x with size := k }) (by simp) live rfl le_rfl
      (fun _ _ _ _ _ _ _ => rfl) fun z member liveZ other => ⟨?_, fun _ _ => rfl⟩
    simp only [mem_append, mem_cons] at member ⊢
    rcases member with left | rfl | rfl | right
    · exact .inl left
    · exact absurd rfl other
    · rw [free] at liveZ
      cases liveZ
    · exact .inr (.inr (.inr right))
  · have shape : l ++ [w] ++ x :: r = l ++ w :: x :: r := by simp
    rw [shape] at standing inv ⊢
    have here := inv.lists.neighbours
    by_cases units : h.pool.alignment ∣ k - x.size
    · refine iff_of_true ⟨_, _, _, _, result data, .inr ⟨?_, ?_⟩⟩ (fine.mpr units)
      · exact standing.prev_nonnull held part
      · have whole := standing.aligned _ held
        have standing' := standing.movePrev live free more part (dvd_sub whole units)
        refine inv.moved_of standing'.inv (dvd_sub whole units)
          (x := { x with addr := x.addr - (k - x.size), size := x.addr + x.size - (x.addr - (k - x.size)) })
          (by simp) live rfl ?_ ?_ fun z member liveZ other => ?_
        · simp only
          omega
        · intro z member liveZ start i inside _
          obtain rfl := inv.block_eq member (by simp) start
          exact copyData_at inside
        · have stays : z ∈ l ∨ z ∈ r := by
            simp only [mem_append, mem_cons] at member
            rcases member with left | rfl | rfl | right
            · exact .inl left
            · rw [free] at liveZ
              cases liveZ
            · exact absurd rfl other
            · exact .inr right
          refine ⟨?_, fun i inside => copyData_off ?_⟩
          · simp only [mem_append, mem_cons]
            tauto
          · have apart := (tiles_map.mp inv.lists.order.tiles).pairwise
            simp only [pairwise_append, pairwise_cons, mem_cons, comp_apply] at apart
            rcases stays with left | right
            · have before := apart.2.2 z left w (.inl rfl)
              omega
            · have behind := apart.2.1.2.1 z right
              omega
    · refine iff_of_false ?_ fun condition => units (fine.mp condition)
      rintro ⟨pool, data', _, q, result', outcome⟩
      have same := (result data).symm.trans result'
      obtain ⟨rfl, _, _, rfl⟩ := same
      have aligned : h.pool.alignment ∣ x.addr - (k - x.size) := by
        rcases outcome with ⟨zero, _⟩ | ⟨_, _, _, _, _, moved⟩
        · rw [zero]
          exact Nat.dvd_zero _
        · exact moved.aligned
      have difference := dvd_sub (standing.aligned _ held) aligned
      have size : x.addr - (x.addr - (k - x.size)) = k - x.size := by omega
      rw [size] at difference
      exact units difference
  · refine iff_of_false ?_ wrong
    rintro ⟨pool, data', _, q, result', outcome⟩
    obtain ⟨pool', data'', q', made, unaccounted⟩ := result data
    have same := made.symm.trans result'
    obtain ⟨rfl, _, _, rfl⟩ := same
    rcases outcome with ⟨_, rfl, _⟩ | ⟨_, mem, alloced, free, rest, moved⟩
    · exact unaccounted ⟨_, _, _, _, inv.sound.accounted⟩
    · exact unaccounted ⟨_, _, _, _, moved.accounted⟩

theorem Standing.call (standing : Standing h blocks unused) (calls : h.Calls c) :
    ∃ blocks' unused', Standing (h.call c) blocks' unused' := by
  cases c with
  | ask e => exact standing.serve calls
  | resize ptr k =>
    obtain ⟨held, positive, _, resizable⟩ := calls
    obtain ⟨l, x, r, rfl, live, rfl⟩ := standing.inv.held held
    have nonnull := standing.nonnull live
    rw [resizable_at standing.inv live] at resizable
    rcases standing.resize_cases live positive with ⟨_, result⟩ | rfl | ⟨y, r, rfl, free, part, _, result⟩ |
      ⟨l, w, rfl, free, more, part, fine, result⟩ | ⟨wrong, _⟩
    · have same : h.call (.resize x.addr k) = h := by
        simp only [SepmetaHeap.call, result, if_true]
      rw [same]
      exact ⟨_, _, standing⟩
    · have same : h.call (.resize x.addr x.size) = h := by
        simp only [SepmetaHeap.call, standing.inv.lists.resize_same live, if_neg nonnull, replaced_self]
      rw [same]
      exact ⟨_, _, standing⟩
    · have same : h.call (.resize x.addr k) =
          ⟨{ h.pool.setMem y.dq (x.addr + k) with freemem := h.pool.freemem + (x.size - k) }, h.live⟩ := by
        simp only [SepmetaHeap.call, result, if_neg nonnull, replaced_self]
      rw [same]
      exact ⟨_, _, standing.moveNext live free positive part⟩
    · have shape : l ++ [w] ++ x :: r = l ++ w :: x :: r := by simp
      rw [shape] at standing
      have units := dvd_sub (standing.aligned _ held) (fine.mp resizable)
      have same : h.call (.resize x.addr k) =
          ⟨{ h.pool.setMem x.dq (x.addr - (k - x.size)) with freemem := h.pool.freemem + (x.size - k) },
            h.live.map fun held => if held = x.addr then x.addr - (k - x.size) else held⟩ := by
        simp only [SepmetaHeap.call, result, if_neg (standing.prev_nonnull held part)]
      rw [same]
      exact ⟨_, _, standing.movePrev live free more part units⟩
    · exact absurd resizable wrong

/-- The runs of one pool whose allocations are also resized. -/
def resized (base size alignment metabase metasize : Nat) : Machine SepmetaHeap :=
  Machine.guided (· = ⟨MempoolSepmeta.construct base size alignment metabase metasize, []⟩) Calls SepmetaHeap.call

theorem resized_standing (accepts : SepmetaAccepts base size alignment metasize)
    (reach : (resized base size alignment metabase metasize).Reach h) : ∃ blocks unused, Standing h blocks unused := by
  refine reach.kept (P := fun h => ∃ blocks unused, Standing h blocks unused) ?_ ?_
  · rintro h rfl
    exact ⟨_, _, first_inv accepts, first_grounds accepts, by simp, fun _ => rfl⟩
  · rintro h c ⟨blocks, unused, standing⟩ calls
    exact standing.call calls

/-- In every state that the runs reach, `resize_alloc` of an allocation does
what it should exactly where it does not take all of a free neighbour, does not
split the end off in front of an allocated block and does not grow backwards by
less than whole units. -/
theorem sepmeta_resize_iff (accepts : SepmetaAccepts base size alignment metasize)
    (reach : (resized base size alignment metabase metasize).Reach h) :
    ∃ blocks alloced free unused, h.Sound blocks alloced free unused ∧
      ∀ ptr ∈ h.live, ∀ data n, 0 < n → n < 2 ^ 31 → (h.Resizes alloced data ptr n ↔ h.Resizable ptr n) := by
  obtain ⟨blocks, unused, standing⟩ := resized_standing accepts reach
  exact ⟨_, _, _, _, standing.inv.sound, fun ptr held data n positive _ => standing.resizes_iff held positive⟩

/-- Of two allocated units the lower grows backwards, the other is given back, and the lower shrinks. -/
def resizedRun : List SepmetaCall :=
  [.ask (.tryAlloc 16), .ask (.tryAlloc 16), .resize 0x1020 32, .ask (.free 0x1030 0), .resize 0x1010 8]

theorem resizedRun_reach : (resized 0x1000 64 16 0x8000 200).Reach (resizedRun.foldl SepmetaHeap.call fourUnits) :=
  Machine.Reach.run (.start rfl) (by decide +kernel)

theorem sepmeta_resize_four_units : ∃ blocks alloced free unused,
    (resizedRun.foldl SepmetaHeap.call fourUnits).Sound blocks alloced free unused ∧
      ∀ ptr ∈ (resizedRun.foldl SepmetaHeap.call fourUnits).live, ∀ data n, 0 < n → n < 2 ^ 31 →
        ((resizedRun.foldl SepmetaHeap.call fourUnits).Resizes alloced data ptr n ↔
          (resizedRun.foldl SepmetaHeap.call fourUnits).Resizable ptr n) :=
  sepmeta_resize_iff accepts_four_units resizedRun_reach

/-- Growing over the whole of the free block in front loses its descriptor. -/
theorem resize_loses_descriptor : ¬ ∀ (base size alignment metabase metasize : Nat) (h : SepmetaHeap),
    SepmetaAccepts base size alignment metasize → (resized base size alignment metabase metasize).Reach h →
    ∀ blocks alloced free unused, h.Sound blocks alloced free unused →
      ∀ ptr ∈ h.live, ∀ data n, 0 < n → n < 2 ^ 31 → h.Resizes alloced data ptr n := by
  intro claim
  have reach : (resized 0x1000 64 16 0x8000 200).Reach (fourUnits.call (.ask (.tryAlloc 16))) :=
    .next (.start rfl) ⟨.ask (.tryAlloc 16), by decide +kernel, rfl⟩
  obtain ⟨blocks, unused, standing⟩ := resized_standing accepts_four_units reach
  have held : 0x1030 ∈ (fourUnits.call (.ask (.tryAlloc 16))).live := by decide +kernel
  have resizes := claim 0x1000 64 16 0x8000 200 _ accepts_four_units reach _ _ _ _ standing.inv.sound 0x1030 held
    (fun _ => 0) 64 (by decide) (by decide)
  have stuck : ¬ (fourUnits.call (.ask (.tryAlloc 16))).Resizable 0x1030 64 := by decide +kernel
  exact stuck ((standing.resizes_iff held (by decide)).mp resizes)

end SepmetaHeap

end Ecos
