import Ecos.Memalloc.MvarHeap
import Ecos.Memalloc.SepmetaFree

namespace Ecos
open Ring.Nodes (before after before_mem after_mem after_cons after_nil)
open List Nat Function MempoolSepmeta Heap Piece

/-- A pool with separate metadata and the addresses its callers hold. -/
structure SepmetaHeap where
  pool : MempoolSepmeta
  live : List Nat

inductive SepmetaEvent
  | tryAlloc (size : Nat)
  | free (ptr size : Nat)

/-- What the constructor asserts of its arguments: a power of two, an arena of
memory with room for a unit of it, and room for a descriptor. -/
structure SepmetaAccepts (base size alignment metasize : Nat) : Prop where
  power : ∃ k ≤ 30, alignment = 2 ^ k
  small : size < 2 ^ 31
  arena : base + size < 2 ^ 32
  room : (base + alignment - 1) / alignment * alignment < (base + size) / alignment * alignment
  metadata : sizeofSepmetaMemdq ≤ metasize

namespace SepmetaHeap
export MempoolSepmeta (pieces)
variable {h : SepmetaHeap} {e : SepmetaEvent} {l r blocks : List Block} {x y : Block} {unused : List Memdq}
  {k s ptr base size alignment metabase metasize : Nat}

def act (h : SepmetaHeap) : SepmetaEvent → SepmetaHeap
  | .tryAlloc size =>
    match h.pool.tryAlloc size with
    | none => h
    | some (pool, ptr) => { pool, live := if ptr = null then h.live else ptr :: h.live }
  | .free ptr size =>
    match h.pool.free ptr size with
    | none => h
    | some (pool, done) => { pool, live := if done then h.live.filter (· ≠ ptr) else h.live }

/-- Callers ask for at least a byte and not for so much that rounding overflows,
never while the free list is empty, and they free what they hold. -/
def Ok (h : SepmetaHeap) : SepmetaEvent → Prop
  | .tryAlloc size => 0 < size ∧ size + h.pool.alignment ≤ 2 ^ 31 ∧ h.pool.next .freehead ≠ .freehead
  | .free ptr _ => ptr ∈ h.live

instance : Decidable (h.Ok e) :=
  match e with
  | .tryAlloc _ => inferInstanceAs (Decidable (_ ∧ _ ∧ _))
  | .free _ _ => inferInstanceAs (Decidable (_ ∈ _))

/-- The pool over its blocks. -/
structure Inv (h : SepmetaHeap) (blocks : List Block) (unused : List Memdq) : Prop where
  lists : h.pool.Lists blocks unused
  coalesced : Coalesced (MempoolSepmeta.pieces blocks)
  settled : ∀ x ∈ blocks, x.use ≠ .loose
  freemem : h.pool.freemem = freeBytes (MempoolSepmeta.pieces blocks)
  owns : h.live.Perm ((usedPieces (MempoolSepmeta.pieces blocks)).map Piece.addr)
  power : ∃ k ≤ 30, h.pool.alignment = 2 ^ k

theorem alignup_spec {power : Nat} (small : power ≤ 30) (fits : s + 2 ^ power ≤ 2 ^ 32) :
    alignup (2 ^ power) s = (s + 2 ^ power - 1) / 2 ^ power * 2 ^ power := by
  have exact : word (s + 2 ^ power - 1) = s + 2 ^ power - 1 := mod_eq_of_lt (by omega)
  unfold alignup
  rw [and_negative (by omega), exact]

theorem roundsize_pos (power : ∃ k ≤ 30, h.pool.alignment = 2 ^ k) (positive : 0 < s)
    (sane : s + h.pool.alignment ≤ 2 ^ 31) : 0 < h.pool.roundsize s := by
  obtain ⟨k, small, value⟩ := power
  have big := Nat.two_pow_pos k
  rw [value] at sane
  have division := div_add_mod' (s + 2 ^ k - 1) (2 ^ k)
  rw [roundsize, value, alignup_spec small (by omega)]
  omega

theorem settled_of_pieces (settled : ∀ x ∈ blocks, x.use ≠ .loose) {blocks' : List Block}
    (same : usedPieces (MempoolSepmeta.pieces blocks') = usedPieces (MempoolSepmeta.pieces blocks)) :
    ∀ x ∈ blocks', x.use ≠ .loose := by
  intro x member loose
  have used : x.toPiece ∈ usedPieces (pieces blocks') :=
    mem_usedPieces.mpr ⟨mem_map_of_mem member, by simp [loose]⟩
  rw [same] at used
  obtain ⟨listed, _⟩ := mem_usedPieces.mp used
  obtain ⟨y, inside, eq⟩ := mem_map.mp listed
  exact settled y inside (by rw [eq]; exact loose)

/-- While the free list is not empty, `try_alloc` returns NULL and changes nothing, or takes the end of a free block.
-/
theorem Inv.tryAlloc_cases (inv : Inv h blocks unused) (ok : h.Ok (.tryAlloc s)) :
    h.pool.tryAlloc s = some (h.pool, null) ∨
    ∃ l x r pool, blocks = l ++ x :: r ∧ x.use = .free ∧ h.pool.roundsize s ≤ x.size ∧
      h.pool.tryAlloc s = some (pool, x.addr + (x.size - h.pool.roundsize s)) ∧
      x.addr + (x.size - h.pool.roundsize s) ≠ null ∧ pool.arena = h.pool.arena ∧
      ∃ blocks' unused', Inv ⟨pool, (x.addr + (x.size - h.pool.roundsize s)) :: h.live⟩ blocks' unused' := by
  obtain ⟨positive, sane, nonempty⟩ := ok
  have large := roundsize_pos inv.power positive sane
  by_cases dead : h.pool.bottom = null ∨ h.pool.metabase = null
  · exact .inl (by simp [tryAlloc, dead])
  have first : h.pool.next .freehead = after .freehead (dqs .free blocks) := by
    have ring := inv.lists.threads.free
    exact (Ring.Nodes.IsRing.between (l := []) ring).1
  have listed : dqs .free blocks ≠ [] := by
    intro empty
    rw [first, empty] at nonempty
    exact nonempty rfl
  have enough : (dqs .free blocks).length ≤ h.pool.longest := by
    have bound := inv.lists.length_le
    have short := Lists.dqs_length_le .free blocks
    unfold longest
    omega
  generalize size : h.pool.roundsize s = n at *
  have search := Lists.findFreeDq (l := []) (k := n) inv.lists listed enough
  rw [← first] at search
  cases found : blocks.find? fun x => fitting n x.toPiece with
  | none => exact .inl (by simp [tryAlloc, dead, size, search, found])
  | some x =>
    have fits : x.use = .free ∧ n ≤ x.size := by
      have chosen := find?_some found
      simpa [fitting] using chosen
    obtain ⟨l, r, rfl⟩ := append_of_mem (mem_of_find?_eq_some found)
    have proper := (inv.lists.complete.dq_proper (x := x) (by simp)).1
    have taken : h.pool.tryAlloc s = some (h.pool.takeFrom n x.dq) := by
      simp [tryAlloc, dead, size, search, found, proper]
    rw [taken]
    have low := (inv.lists.order.within (x := x) (by simp)).1
    have notNull : h.pool.bottom ≠ null := fun zero => dead (.inl zero)
    have place : x.addr + (x.size - n) ≠ null := by
      simp only [null] at notNull ⊢
      omega
    have sum := freeBytes_carve (l := pieces l) (r := pieces r) fits.1 fits.2
    have used := usedPieces_carve (n := n) (l := pieces l) (r := pieces r) fits.1
    have chain := coalesced_carve (n := n) (l := pieces l) (r := pieces r)
      (by simpa [pieces] using inv.coalesced) fits.1
    have owns := inv.owns
    have unusedPieces : usedPieces (pieces (l ++ x :: r)) = usedPieces (pieces l) ++ usedPieces (pieces r) := by
      simp [usedPieces, pieces, fits.1]
    have total := inv.freemem
    have regroup : pieces (l ++ x :: r) = pieces l ++ x.toPiece ::
      pieces r := by
      simp [pieces]
    rw [regroup] at total
    rw [unusedPieces, map_append] at owns
    by_cases whole : n = x.size
    · subst whole
      obtain ⟨links, takes, lists⟩ := inv.lists.take_whole fits.1 inv.coalesced inv.settled
      have shape : pieces (l ++ { x with use := .live } :: r) = pieces l ++ carve x.size x.toPiece ++ pieces r := by
        simp [carve, pieces]
      refine .inr ⟨l, x, r, { h.pool with links, freemem := h.pool.freemem - x.size }, rfl, fits.1, le_rfl,
        by rw [takes, Nat.sub_self, Nat.add_zero], place, rfl, _, unused, lists, ?_, ?_, ?_, ?_, inv.power⟩
      · rw [shape]
        exact chain
      · intro y member
        rcases mem_append.mp member with left | right
        · exact inv.settled y (by simp [left])
        · rcases mem_cons.mp right with rfl | later
          · simp
          · exact inv.settled y (by simp [later])
      · rw [shape]
        simp only
        omega
      · rw [shape, used, map_append, map_cons]
        exact (owns.cons _).trans perm_middle.symm
    · by_cases none : h.pool.freemetahead = .null
      · exact .inl (by simp [takeFrom, inv.lists.extent, whole, none])
      · obtain ⟨rest, p', _, takes, lists, freemem, arena⟩ :=
          inv.lists.take_end fits.1 inv.coalesced inv.settled large (by omega) none
        have shape : pieces (l ++ { x with size := x.size - n } ::
            ⟨⟨x.addr + (x.size - n), n, .live⟩, h.pool.freemetahead⟩ :: r) =
            pieces l ++ carve n x.toPiece ++ pieces r := by
          simp [carve, pieces, whole]
        refine .inr ⟨l, x, r, p', rfl, fits.1, fits.2, by rw [takes], place, arena, _, rest, lists, ?_, ?_, ?_, ?_,
          ?_⟩
        · rw [shape]
          exact chain
        · intro y member
          rcases mem_append.mp member with left | right
          · exact inv.settled y (by simp [left])
          · rcases mem_cons.mp right with rfl | later
            · exact inv.settled x (by simp)
            · rcases mem_cons.mp later with rfl | behind
              · simp
              · exact inv.settled y (by simp [behind])
        · rw [shape]
          simp only [freemem]
          omega
        · rw [shape, used, map_append, map_cons]
          exact (owns.cons _).trans perm_middle.symm
        · have same : p'.alignment = h.pool.alignment := congrArg (fun a => a.2.2.1) arena
          simp only [same]
          exact inv.power

theorem Inv.tryAlloc (inv : Inv h blocks unused) (ok : h.Ok (.tryAlloc s)) :
    (∃ blocks' unused', Inv (h.act (.tryAlloc s)) blocks' unused') ∧ (h.pool.tryAlloc s).isSome := by
  rcases inv.tryAlloc_cases ok with none | ⟨l, x, r, pool, -, -, -, takes, place, -, inv'⟩
  · have same : h.act (.tryAlloc s) = h := by
      simp [act, none]
    rw [same]
    exact ⟨⟨blocks, unused, inv⟩, by rw [none]; rfl⟩
  · have state : h.act (.tryAlloc s) = ⟨pool, (x.addr + (x.size - h.pool.roundsize s)) :: h.live⟩ := by
      simp only [act, takes, if_neg place]
    rw [state]
    exact ⟨inv', by rw [takes]; rfl⟩

theorem Inv.held (inv : Inv h blocks unused) (member : ptr ∈ h.live) :
    ∃ l x r, blocks = l ++ x :: r ∧ x.use = .live ∧ ptr = x.addr := by
  have listed := inv.owns.mem_iff.mp member
  obtain ⟨z, used, rfl⟩ := mem_map.mp listed
  obtain ⟨inside, notFree⟩ := mem_usedPieces.mp used
  obtain ⟨x, inBlocks, rfl⟩ := mem_map.mp inside
  obtain ⟨l, r, rfl⟩ := append_of_mem inBlocks
  exact ⟨l, x, r, rfl, Lists.live_of_settled (inv.settled x inBlocks) notFree, rfl⟩

theorem usedPieces_split (live : x.use = .live) : usedPieces (MempoolSepmeta.pieces (l ++ x :: r)) =
    usedPieces (MempoolSepmeta.pieces l) ++ x.toPiece :: usedPieces (MempoolSepmeta.pieces r) := by
  simp only [pieces, map_append, map_cons]
  exact usedPieces_live live

theorem Inv.free (inv : Inv h blocks unused) (ok : h.Ok (.free ptr s)) :
    (∃ blocks' unused', Inv (h.act (.free ptr s)) blocks' unused') ∧ (h.pool.free ptr s).isSome := by
  obtain ⟨l, x, r, rfl, live, rfl⟩ := inv.held ok
  rcases inv.lists.free (s := s) live inv.coalesced inv.settled with
    ⟨p', blocks', unused', frees, lists, coalesced, bytes, used, arena, freemem⟩ | refuses
  · have state : h.act (.free x.addr s) = ⟨p', h.live.filter (· ≠ x.addr)⟩ := by
      simp [act, frees]
    have settled : ∀ y ∈ l ++ r, y.use ≠ .loose := by
      intro y member
      refine inv.settled y ?_
      simp only [mem_append, mem_cons] at member ⊢
      tauto
    rw [state]
    refine ⟨⟨blocks', unused', lists, coalesced, settled_of_pieces settled used, ?_, ?_, ?_⟩, by rw [frees]; rfl⟩
    · have total := inv.freemem
      have held : freeBytes (pieces (l ++ x :: r)) = freeBytes (pieces (l ++ r)) := by
        simp [freeBytes, pieces, live]
      simp only [freemem]
      omega
    · obtain ⟨perm, fresh⟩ := usedPieces_middle inv.lists.order.tiles (usedPieces_split live)
      have shape : pieces l ++ pieces r = pieces (l ++ r) :=
        map_append.symm
      have others : ∀ a ∈ (usedPieces (pieces l ++ pieces r)).map addr, decide (a ≠ x.addr) = true := by
        intro a member
        have other : a ≠ x.addr := fun same => fresh (same ▸ member)
        exact decide_eq_true other
      have kept := (inv.owns.trans (perm.map addr)).filter fun a => decide (a ≠ x.addr)
      rw [map_cons, filter_cons_of_neg (by simp), filter_eq_self.mpr others, shape] at kept
      rw [used]
      exact kept
    · have same : p'.alignment = h.pool.alignment := congrArg (fun a => a.2.2.1) arena
      rw [same]
      exact inv.power
  · have same : h.act (.free x.addr s) = h := by
      simp [act, refuses]
    rw [same]
    exact ⟨⟨_, unused, inv⟩, by rw [refuses]; rfl⟩

/-- What is said of a pool: from the block behind `memend` on the mem list tiles
the arena, the three lists share out the descriptors, the free and the allocated
ones are the blocks in their order, and no two neighbours are free. -/
structure Sound (h : SepmetaHeap) (blocks alloced free unused : List Memdq) : Prop where
  memlist : h.pool.memlinks.IsRing (.memend :: blocks)
  tiles : Tiles h.pool.mem h.pool.extent h.pool.bottom blocks h.pool.top
  allocedlist : h.pool.links.IsRing (.allocedhead :: (alloced ++ [.memend]))
  freelist : h.pool.links.IsRing (.freehead :: free)
  unusedlist : Chain (fun d => (h.pool.links.next d).ref) h.pool.freemetahead.ref unused
  every : (alloced ++ free ++ unused).Perm (everyMemdq h.pool.descriptors)
  exactly : (alloced ++ free).Perm blocks
  allocedOrder : alloced.Sublist blocks
  freeOrder : free.Sublist blocks
  live : h.live.Perm (alloced.map h.pool.mem)
  coalesced : blocks.IsChain fun a b => ¬ (a ∈ free ∧ b ∈ free)
  freemem : h.pool.freemem = (free.map h.pool.extent).sum

theorem Inv.sizes (inv : Inv h blocks unused) (member : x ∈ blocks) : h.pool.extent x.dq = x.size := by
  obtain ⟨l, r, rfl⟩ := append_of_mem member
  exact inv.lists.extent

theorem Inv.dq_free (inv : Inv h blocks unused) (member : x ∈ blocks) (listed : x.dq ∈ dqs .free blocks) :
    x.use = .free := by
  obtain ⟨y, inside, free, same⟩ := mem_dqs.mp listed
  have once := (nodup_cons.mp inv.lists.complete.memring_nodup).2
  obtain rfl : y = x := inj_on_of_nodup_map once inside member same
  exact free

theorem dqs_sublist (use : Use) (blocks : List Block) : (dqs use blocks).Sublist (blocks.map Block.dq) :=
  filter_sublist.map _

section
variable (inv : Inv h blocks unused)
include inv

theorem Inv.tiles : Tiles h.pool.mem h.pool.extent h.pool.bottom (blocks.map Block.dq) h.pool.top := by
  refine tiles_map.mpr ?_
  have tiles := tiles_map.mp inv.lists.order.tiles
  refine tiles.congr (fun x member => ?_) fun x member => ?_
  · exact inv.lists.order.mems x member
  · rw [comp_apply, comp_apply]
    exact inv.sizes member

theorem Inv.live_mems : h.live.Perm ((dqs .live blocks).map h.pool.mem) := by
  have filters : (blocks.filter fun x => decide (x.use = .live)) =
      blocks.filter ((fun z => decide (z.use ≠ .free)) ∘ Block.toPiece) := by
    refine filter_congr fun x member => ?_
    have settled := inv.settled x member
    cases use : x.use <;> simp_all
  have same : (dqs .live blocks).map h.pool.mem = (usedPieces (pieces blocks)).map addr := by
    unfold dqs usedPieces pieces
    rw [filter_map, map_map, map_map, filters]
    exact map_congr_left fun x member => inv.lists.order.mems x (mem_of_mem_filter member)
  rw [same]
  exact inv.owns

theorem Inv.no_neighbours :
    (blocks.map Block.dq).IsChain fun a b => ¬ (a ∈ dqs .free blocks ∧ b ∈ dqs .free blocks) := by
  have chain := inv.coalesced
  unfold Coalesced pieces at chain
  rw [isChain_map] at chain ⊢
  refine chain.imp_of_mem_imp ?_
  intro x y inX inY apart both
  exact apart ⟨inv.dq_free inX both.1, inv.dq_free inY both.2⟩

theorem Inv.free_sum : h.pool.freemem = ((dqs .free blocks).map h.pool.extent).sum := by
  have same : (dqs .free blocks).map h.pool.extent = ((pieces blocks).filter (·.use = .free)).map Piece.size := by
    unfold dqs pieces
    rw [filter_map, map_map, map_map]
    refine map_congr_left fun x member => ?_
    rw [comp_apply, comp_apply]
    exact inv.sizes (mem_of_mem_filter member)
  rw [inv.freemem, same]
  rfl

theorem Inv.sound : h.Sound (blocks.map Block.dq) (dqs .live blocks) (dqs .free blocks) unused := by
  have noLoose : dqs .loose blocks = [] := by
    refine eq_nil_iff_forall_not_mem.mpr fun d member => ?_
    obtain ⟨x, inside, loose, _⟩ := mem_dqs.mp member
    exact inv.settled x inside loose
  have perm : (dqs .live blocks ++ dqs .free blocks).Perm (blocks.map Block.dq) := by
    have parts := dqs_perm blocks
    rw [noLoose, append_nil] at parts
    exact perm_append_comm.trans parts.symm
  exact ⟨inv.lists.order.ring, inv.tiles, inv.lists.threads.alloced, inv.lists.threads.free, inv.lists.threads.unused,
    (perm.append_right unused).trans inv.lists.complete, perm, dqs_sublist .live blocks, dqs_sublist .free blocks,
    inv.live_mems, inv.no_neighbours, inv.free_sum⟩

end

/-- The runs of one pool. -/
def runs (base size alignment metabase metasize : Nat) : Machine SepmetaHeap :=
  Machine.guided (· = ⟨MempoolSepmeta.construct base size alignment metabase metasize, []⟩) Ok act

theorem unused_chain (i m : Nat) (sum : i + m = metasize / sizeofSepmetaMemdq) :
    Chain (fun d => ((MempoolSepmeta.construct base size alignment metabase metasize).links.next d).ref)
      (if 0 < m then some (.metadata i) else none) ((List.range' i m).map Memdq.metadata) := by
  induction m generalizing i with
  | zero => rfl
  | succ m ih =>
    rw [range'_succ, map_cons]
    refine ⟨rfl, ?_⟩
    have rest := ih (i + 1) (by omega)
    have next : ((construct base size alignment metabase metasize).links.next (.metadata i)).ref =
        if 0 < m then some (.metadata (i + 1)) else none := by
      by_cases more : 0 < m
      · have inside : i + 1 < metasize / sizeofSepmetaMemdq := by omega
        simp [construct, inside, more, Memdq.ref]
      · have last : ¬ i + 1 < metasize / sizeofSepmetaMemdq := by omega
        simp [construct, last, more, Memdq.ref]
    beta_reduce
    rw [next]
    exact rest

theorem arena_spec (accepts : SepmetaAccepts base size alignment metasize) :
    alignup alignment base < aligndown alignment (base + size) ∧
      aligndown alignment (base + size) < alignup alignment base + 2 ^ 31 := by
  obtain ⟨⟨k, small, rfl⟩, short, inside, room, _⟩ := accepts
  have positive := Nat.two_pow_pos k
  have bottomUp := Nat.div_add_mod' (base + 2 ^ k - 1) (2 ^ k)
  have topDown := Nat.div_mul_le_self (base + size) (2 ^ k)
  have more : (base + 2 ^ k - 1) / 2 ^ k + 1 ≤ (base + size) / 2 ^ k := Nat.lt_of_mul_lt_mul_right room
  have apart := mul_le_mul_right (2 ^ k) more
  rw [Nat.add_mul, Nat.one_mul] at apart
  have up := alignup_spec (s := base) small (by omega)
  have down : aligndown (2 ^ k) (base + size) = (base + size) / 2 ^ k * 2 ^ k := by
    unfold aligndown
    rw [and_negative (by omega)]
    unfold word
    rw [mod_eq_of_lt inside]
  rw [up, down]
  exact ⟨room, by omega⟩

theorem first_inv (accepts : SepmetaAccepts base size alignment metasize) :
    Inv ⟨MempoolSepmeta.construct base size alignment metabase metasize, []⟩
      [⟨⟨alignup alignment base, aligndown alignment (base + size) -
        alignup alignment base, .free⟩, .memhead⟩]
      ((List.range (metasize / sizeofSepmetaMemdq)).map Memdq.metadata) := by
  obtain ⟨ordered, small⟩ := arena_spec accepts
  have some : 0 < metasize / sizeofSepmetaMemdq := Nat.div_pos accepts.metadata (by decide)
  have chain := @unused_chain base size alignment metabase _ 0 _
    (Nat.zero_add (metasize / sizeofSepmetaMemdq))
  rw [if_pos some, ← range_eq_range'] at chain
  refine ⟨⟨⟨⟨⟨rfl, rfl⟩, rfl, rfl⟩, ⟨rfl, ?_, ?_⟩, ?_, rfl⟩, ⟨⟨⟨rfl, rfl⟩, rfl, rfl⟩, ⟨⟨rfl, rfl⟩, rfl, rfl⟩, chain⟩,
    Perm.refl _, small⟩, isChain_singleton _, by simp, ?_, by simp [usedPieces], accepts.power⟩
  · exact Nat.sub_pos_of_lt ordered
  · exact Nat.add_sub_cancel' ordered.le
  · intro x member
    obtain rfl := mem_singleton.mp member
    rfl
  · have bytes : freeBytes (pieces [⟨⟨alignup alignment base,
        aligndown alignment (base + size) - alignup alignment base, .free⟩, .memhead⟩]) =
        aligndown alignment (base + size) - alignup alignment base := by
      simp [freeBytes]
    rw [bytes, Int.ofNat_sub ordered.le]
    rfl

/-- In every run the mem list from the block behind `memend` on tiles the arena,
the lists share out the descriptors and hold what they should, no two free
blocks are neighbours, and both operations end. -/
theorem sepmeta_pool_tiled (accepts : SepmetaAccepts base size alignment metasize)
    (reach : (runs base size alignment metabase metasize).Reach h) :
    (∃ blocks alloced free unused, h.Sound blocks alloced free unused) ∧
      (∀ s, h.Ok (.tryAlloc s) → (h.pool.tryAlloc s).isSome) ∧
      ∀ ptr s, h.Ok (.free ptr s) → (h.pool.free ptr s).isSome := by
  have kept : ∃ blocks unused, Inv h blocks unused := by
    refine reach.kept (P := fun h => ∃ blocks unused, Inv h blocks unused) ?_ ?_
    · rintro h rfl
      exact ⟨_, _, first_inv accepts⟩
    · rintro h e ⟨blocks, unused, inv⟩ ok
      cases e with
      | tryAlloc s => exact (inv.tryAlloc ok).1
      | free ptr s => exact (inv.free ok).1
  obtain ⟨blocks, unused, inv⟩ := kept
  refine ⟨⟨_, _, _, _, inv.sound⟩, fun s ok => ?_, fun ptr s ok => ?_⟩
  · exact (inv.tryAlloc ok).2
  · exact (inv.free ok).2

theorem accepts_four_units : SepmetaAccepts 0x1000 64 16 200 where
  power := ⟨4, by decide, rfl⟩
  small := by decide
  arena := by decide
  room := by decide
  metadata := by decide

/-- A new pool of four units with ten descriptors. -/
def fourUnits : SepmetaHeap := ⟨MempoolSepmeta.construct 0x1000 64 16 0x8000 200, []⟩

/-- All units are allocated, then the second and the first are given back. -/
def fourUnitsRun : List SepmetaEvent :=
  [.tryAlloc 16, .tryAlloc 16, .tryAlloc 16, .tryAlloc 16, .free 0x1010 0, .free 0x1000 16]

theorem fourUnits_reach : (runs 0x1000 64 16 0x8000 200).Reach (fourUnitsRun.foldl act fourUnits) :=
  Machine.Reach.run (.start rfl) (by decide +kernel)

theorem sepmeta_pool_tiled_four_units :
    ∃ blocks alloced free unused, (fourUnitsRun.foldl act fourUnits).Sound blocks alloced free unused :=
  (sepmeta_pool_tiled accepts_four_units fourUnits_reach).1

/-- The descriptor `memhead` is not that of the first block for ever: coalescing recycles it. -/
theorem memhead_recycled : ¬ ∀ (base size alignment metabase metasize : Nat) (h : SepmetaHeap),
    SepmetaAccepts base size alignment metasize → (runs base size alignment metabase metasize).Reach h →
    ∃ blocks, Tiles h.pool.mem h.pool.extent h.pool.bottom (.memhead :: blocks) h.pool.top := by
  intro claim
  obtain ⟨blocks, _, positive, _⟩ := claim 0x1000 64 16 0x8000 200 _ accepts_four_units fourUnits_reach
  have empty : (fourUnitsRun.foldl act fourUnits).pool.extent .memhead = 0 := by decide +kernel
  omega

end SepmetaHeap

end Ecos
