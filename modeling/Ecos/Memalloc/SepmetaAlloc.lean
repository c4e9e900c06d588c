import Ecos.Memalloc.SepmetaThreads

namespace Ecos.MempoolSepmeta
open Ring.Nodes (before after before_mem after_mem after_cons after_nil)
open List Ring

variable {p : MempoolSepmeta} {d v : Memdq} {l r blocks : List Block} {x y : Block} {unused : List Memdq} {k s : Nat}

/-- The pool holds the blocks: in order, on their lists, with every descriptor accounted for. -/
structure Lists (p : MempoolSepmeta) (blocks : List Block) (unused : List Memdq) : Prop where
  order : Order p.memlinks p.mem p.bottom p.top blocks
  threads : MetaThreads p.links p.freemetahead blocks unused
  complete : Complete p.descriptors blocks unused
  small : p.top < p.bottom + 2 ^ 31

/-- What no operation changes. -/
def arena (p : MempoolSepmeta) : Nat × Nat × Nat × Nat × Nat := (p.bottom, p.top, p.alignment, p.metabase, p.metasize)

theorem unlink_eq (apart : d ≠ p.links.prev d) : p.unlink d = { p with links := p.links.bridge d } := by
  simp [unlink, setNext, setPrev, next, prev, Nodes.bridge, apart]

theorem linkAlloced_eq (apart : v ≠ d) (other : p.links.prev v ≠ d) :
    ((p.setNext d v).setPrev d (p.links.prev v)).linkAlloced d = { p with links := p.links.insert v d } := by
  simp [linkAlloced, setNext, setPrev, next, prev, Nodes.insert, apart, other.symm]

theorem linkAlloced_twice (apart : v ≠ d) (other : p.links.prev v ≠ d) :
    ({ p with links := p.links.insert v d } : MempoolSepmeta).linkAlloced d =
      { p with links := p.links.insert v d } := by
  simp [linkAlloced, setNext, setPrev, next, prev, Nodes.insert, apart, apart.symm, other.symm]

namespace Lists

theorem length_le (lists : p.Lists blocks unused) : blocks.length ≤ p.descriptors + 1 := by
  have count := lists.complete.length_eq
  simp [everyMemdq] at count
  omega

theorem dqs_length_le (use : Use) (blocks : List Block) : (dqs use blocks).length ≤ blocks.length := by
  unfold dqs
  rw [length_map]
  exact length_filter_le _ _

section
variable (lists : p.Lists (l ++ x :: r) unused)
include lists

theorem extent : p.extent x.dq = x.size := by
  have within := lists.order.within (x := x) (by simp)
  have small := lists.small
  have ends : p.mem (p.memnext x.dq) = x.addr + x.size := lists.order.mem_next
  have begins := lists.order.mems x (by simp)
  unfold MempoolSepmeta.extent word
  rw [ends, begins]
  omega

theorem fits_iff : p.fits k x.dq = decide (k ≤ x.size) := by
  have within := lists.order.within (x := x) (by simp)
  have small := lists.small
  have bound : x.size < 2 ^ 31 := by omega
  rw [fits, lists.extent]
  exact decide_eq_decide.mpr ⟨And.left, fun le => ⟨le, bound⟩⟩

theorem free_around (free : x.use = .free) :
    p.links.next x.dq = after .freehead (dqs .free r) ∧ p.links.prev x.dq = before .freehead (dqs .free l) := by
  have ring := lists.threads.free
  rw [freeRing_split free] at ring
  exact ring.around.1

theorem live_around (live : x.use = .live) : p.links.next x.dq = after .allocedhead (dqs .live r ++ [.memend]) ∧
      p.links.prev x.dq = before .allocedhead (dqs .live l) := by
  have ring := lists.threads.alloced
  rw [allocedRing_split live] at ring
  exact ring.around.1

theorem free_prev_ne (free : x.use = .free) : p.links.prev x.dq ≠ x.dq := by
  have ring := lists.threads.free
  have nodup := lists.complete.freeRing_nodup
  rw [freeRing_split free] at ring nodup
  exact ring.prev_ne nodup

theorem live_prev_ne (live : x.use = .live) : p.links.prev x.dq ≠ x.dq := by
  have ring := lists.threads.alloced
  have nodup := lists.complete.allocedRing_nodup
  rw [allocedRing_split live] at ring nodup
  exact ring.prev_ne nodup

end

theorem findFreeDq {fuel : Nat} (lists : p.Lists (l ++ r) unused) (nonempty : dqs .free r ≠ [])
    (enough : (dqs .free r).length ≤ fuel) : p.findFreeDq k fuel (after .freehead (dqs .free r)) =
      some ((r.find? fun x => fitting k x.toPiece).elim .null Block.dq) := by
  induction r generalizing l fuel with
  | nil => exact absurd rfl nonempty
  | cons y r ih =>
    have regroup : l ++ y :: r = (l ++ [y]) ++ r := by simp
    by_cases free : y.use = .free
    · rw [dqs_cons, if_pos free, length_cons] at enough
      obtain ⟨fuel, rfl⟩ : ∃ f, fuel = f + 1 := ⟨fuel - 1, by omega⟩
      rw [dqs_cons, if_pos free, after_cons]
      simp only [MempoolSepmeta.findFreeDq, lists.fits_iff]
      by_cases large : k ≤ y.size
      · simp [fitting, free, large]
      · rw [find?_cons_of_neg (by simp [fitting, large])]
        have behind : p.next y.dq = after .freehead (dqs .free r) := (lists.free_around free).1
        simp only [large, decide_false, Bool.false_eq_true, if_false, behind]
        by_cases last : dqs .free r = []
        · have none : r.find? (fun x => fitting k x.toPiece) = none := by
            refine find?_eq_none.mpr fun z member => ?_
            have used : z.use ≠ .free := fun freeZ => by
              have listed : z.dq ∈ dqs .free r := mem_dqs.mpr ⟨z, member, freeZ, rfl⟩
              simp [last] at listed
            simp [fitting, used]
          simp [last, none]
        · have notHead : after .freehead (dqs .free r) ≠ .freehead := by
            obtain ⟨e, rest, shape⟩ := exists_cons_of_ne_nil last
            have member : e ∈ dqs .free r := by simp [shape]
            obtain ⟨z, inside, _, rfl⟩ := mem_dqs.mp member
            rw [shape, after_cons]
            exact (lists.complete.dq_proper (x := z) (by simp [inside])).2.2.1
          rw [if_neg notHead]
          exact ih (regroup ▸ lists) last (by omega)
    · rw [dqs_cons, if_neg free] at nonempty enough ⊢
      rw [find?_cons_of_neg (by simp [fitting, free])]
      exact ih (regroup ▸ lists) nonempty enough

theorem next_alloced (coalesced : Coalesced ((l ++ x :: r).map Block.toPiece)) (free : x.use = .free)
    (settled : ∀ y ∈ l ++ x :: r, y.use ≠ .loose) :
    after .memend (r.map Block.dq) = after .allocedhead (dqs .live r ++ [.memend]) := by
  cases r with
  | nil => rfl
  | cons y r =>
    have live : y.use = .live := by
      cases use : y.use with
      | live => rfl
      | loose => exact absurd use (settled y (by simp))
      | free =>
        rw [map_append, map_cons, map_cons] at coalesced
        have chain := (isChain_append.mp coalesced).2.1
        exact absurd ⟨free, use⟩ (chain.rel_head? rfl)
    simp [dqs_cons, live]

/-- The descriptors after the exact fit and after the split. -/
def carveBlocks (k : Nat) (d : Memdq) (x : Block) : List Block :=
  if k = x.size then [{ x with use := .live }]
  else [{ x with size := x.size - k }, ⟨⟨x.addr + (x.size - k), k, .live⟩, d⟩]

section Take
variable (lists : p.Lists (l ++ x :: r) unused) (free : x.use = .free)
  (coalesced : Coalesced ((l ++ x :: r).map Block.toPiece)) (settled : ∀ y ∈ l ++ x :: r, y.use ≠ .loose)
include lists free coalesced settled

theorem take_whole : ∃ links, p.takeFrom x.size x.dq = ({ p with links, freemem := p.freemem - x.size }, x.addr) ∧
    ({ p with links, freemem := p.freemem - x.size } : MempoolSepmeta).Lists (l ++ { x with use := .live } :: r) unused := by
  have behind : p.memlinks.next x.dq = after .allocedhead (dqs .live r ++ [.memend]) :=
    (lists.order.around).1.trans (next_alloced coalesced free settled)
  have loose := lists.threads.unlink_free lists.complete free
  have complete' : Complete p.descriptors (l ++ { x with use := .loose } :: r) unused := lists.complete.reuse rfl
  obtain ⟨_, apart, other⟩ := loose.alloced_place complete' rfl
  rw [← behind] at apart other
  refine ⟨(p.links.bridge x.dq).insert (p.memlinks.next x.dq) x.dq, ?_, ?_⟩
  · have shape : (p.takeWhole x.dq).linkAlloced x.dq =
        { p with links := (p.links.bridge x.dq).insert (p.memlinks.next x.dq) x.dq } := by
      have linked := linkAlloced_eq (p := { p with links := p.links.bridge x.dq }) apart other
      rw [← linked]
      simp [takeWhole, unlink_eq (lists.free_prev_ne free).symm, memnext, setNext, next, prev]
    have begins := lists.order.mems x (by simp)
    simp [takeFrom, lists.extent, shape, begins]
  · refine ⟨lists.order.reuse .live, ?_, lists.complete.reuse rfl, lists.small⟩
    rw [behind]
    exact loose.insert_live complete' rfl

theorem take_end (positive : 0 < k) (less : k < x.size) (some : p.freemetahead ≠ .null) :
    ∃ rest p', unused = p.freemetahead :: rest ∧ p.takeFrom k x.dq = (p', x.addr + (x.size - k)) ∧
      p'.Lists (l ++ { x with size := x.size - k } :: ⟨⟨x.addr + (x.size - k), k, .live⟩, p.freemetahead⟩ :: r) rest ∧
      p'.freemem = p.freemem - k ∧ p'.arena = p.arena := by
  have behind : p.memlinks.next x.dq = after .allocedhead (dqs .live r ++ [.memend]) :=
    (lists.order.around).1.trans (next_alloced coalesced free settled)
  have regroup : l ++ x :: r = (l ++ [x]) ++ r := by simp
  let new : Block := ⟨⟨x.addr + (x.size - k), k, .loose⟩, p.freemetahead⟩
  obtain ⟨rest, shape, popped⟩ := MetaThreads.pop (y := new) (regroup ▸ lists.threads) some rfl rfl
  have complete := lists.complete
  rw [shape, regroup] at complete
  have complete' : Complete p.descriptors ((l ++ [x]) ++ new :: r) rest := complete.pop rfl
  obtain ⟨_, apart, other⟩ : _ ∧ _ ≠ p.freemetahead ∧ _ ≠ p.freemetahead := popped.alloced_place complete' rfl
  rw [← behind] at apart other
  have notSelf : x.dq ≠ p.freemetahead := by
    have nodup := complete'.memring_nodup
    simp only [map_append, map_cons, map_nil, nodup_cons, nodup_append] at nodup
    exact nodup.2.2.2 x.dq (by simp) p.freemetahead (by simp [new])
  have ends : p.mem (p.memlinks.next x.dq) = x.addr + x.size := lists.order.mem_next
  let p' : MempoolSepmeta := { p with
    freemetahead := p.links.next p.freemetahead
    memlinks := p.memlinks.append x.dq p.freemetahead
    mem := Function.update p.mem p.freemetahead (x.addr + (x.size - k))
    links := p.links.insert (p.memlinks.next x.dq) p.freemetahead
    freemem := p.freemem - k }
  have notWhole : ¬ k = x.size := by omega
  have place : x.addr + x.size - k = x.addr + (x.size - k) := by omega
  refine ⟨rest, p', shape, ?_, ⟨?_, ?_, ?_, lists.small⟩, rfl, rfl⟩
  · have built : p.takeEnd k x.dq p.freemetahead = { p' with freemem := p.freemem } := by
      have linked := linkAlloced_eq (p := { p' with links := p.links, freemem := p.freemem }) apart other
      have target : { p' with freemem := p.freemem } = { { p' with links := p.links, freemem := p.freemem } with
        links := p.links.insert (p.memlinks.next x.dq) p.freemetahead } := rfl
      rw [target, ← linked]
      simp [takeEnd, p', setNext, setPrev, setMemnext, setMemprev, setMem, next, prev, memnext, Nodes.append,
        notSelf, notSelf.symm, ends, place]
    have again := linkAlloced_twice (p := { p' with links := p.links, freemem := p.freemem }) apart other
    have done : (p.takeEnd k x.dq p.freemetahead).linkAlloced p.freemetahead = { p' with freemem := p.freemem } := by
      rw [built]
      exact again
    simp [takeFrom, lists.extent, notWhole, some, done, p']
  · exact lists.order.cut (shape ▸ lists.complete) positive less
  · have linked := popped.insert_live complete' rfl
    have target : p'.links = p.links.insert (after .allocedhead (dqs .live r ++ [.memend])) new.dq := by
      simp [p', behind, new]
    rw [target]
    have same : (l ++ [x]) ++ { new with use := .live } :: r = l ++ x :: ⟨⟨x.addr + (x.size - k), k, .live⟩, p.freemetahead⟩ :: r := by
      simp [new]
    rw [same] at linked
    exact linked.resize rfl rfl
  · have same := complete'.reuse (y := { new with use := .live }) rfl
    have regroup' : (l ++ [x]) ++ { new with use := .live } :: r = l ++ x :: { new with use := .live } :: r := by simp
    rw [regroup'] at same
    exact same.reuse rfl

end Take

end Lists

end Ecos.MempoolSepmeta
