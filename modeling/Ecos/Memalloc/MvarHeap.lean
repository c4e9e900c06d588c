import Ecos.Lib.Machine
import Ecos.Memalloc.MvarConstruct

namespace Ecos
open Function Piece List
open MempoolVariable (roundup alloc2memdq)

/-- A pool and the allocations its callers hold: each pointer with the bytes last asked for. -/
structure Heap where
  pool : MempoolVariable
  live : List (Nat × Nat)

inductive HeapEvent
  | tryAlloc (size : Nat)
  | free (ptr size : Nat)
  | resizeAlloc (ptr newsize : Nat)
  /-- The owner of an allocation writes a word of it. -/
  | store (ptr addr value : Nat)

namespace Heap
variable {g : Geometry} {h : Heap} {e : HeapEvent} {m : Memory} {l r pieces : List Piece} {x y : Piece}
  {ptr size s n a : Nat}

def act (h : Heap) : HeapEvent → Heap
  | .tryAlloc size =>
    match h.pool.tryAlloc size with
    | none => h
    | some (pool, ptr) => { pool, live := if ptr = null then h.live else (ptr, size) :: h.live }
  | .free ptr size =>
    match h.pool.free ptr size with
    | none => h
    | some (pool, done) => { pool, live := if done then h.live.filter (·.1 ≠ ptr) else h.live }
  | .resizeAlloc ptr newsize =>
    match h.pool.resizeAlloc ptr newsize with
    | none => h
    | some (pool, ret, _) =>
      { pool, live := if ret = null then h.live else h.live.map fun e => if e.1 = ptr then (ret, newsize) else e }
  | .store _ addr value => { h with pool := { h.pool with mem := Function.update h.pool.mem addr value } }

/-- The size that an event rounds up does not overflow. -/
def Sane (h : Heap) (size : Nat) : Prop := size + sizeofMemdq + h.pool.alignment < 2 ^ 31

/-- What callers do: they free and resize what they hold and write what they asked for. -/
def Ok (h : Heap) : HeapEvent → Prop
  | .tryAlloc size => h.Sane size
  | .free ptr size => h.Sane size ∧ ptr ∈ h.live.map Prod.fst
  | .resizeAlloc ptr newsize => h.Sane newsize ∧ ptr ∈ h.live.map Prod.fst
  | .store ptr addr _ => addr % 4 = 0 ∧ ∃ held ∈ h.live, held.1 = ptr ∧ ptr ≤ addr ∧ addr < ptr + held.2

instance : Decidable (h.Sane s) := inferInstanceAs (Decidable (_ < _))

instance : Decidable (h.Ok e) :=
  match e with
  | .tryAlloc _ => inferInstanceAs (Decidable (Sane _ _))
  | .free _ _ => inferInstanceAs (Decidable (_ ∧ _))
  | .resizeAlloc _ _ => inferInstanceAs (Decidable (_ ∧ _))
  | .store _ _ _ => inferInstanceAs (Decidable (_ ∧ _))

/-- The pointer to the end of a resized allocation lies in the address space,
if the allocation is the last block of the arena. -/
def NoWrap (h : Heap) : HeapEvent → Prop
  | .resizeAlloc ptr newsize =>
    let dq := MempoolVariable.alloc2memdq ptr
    dq + h.pool.mem.size dq = h.pool.top → dq + MempoolVariable.roundup h.pool.alignment newsize < 2 ^ 32
  | _ => True

instance : Decidable (h.NoWrap e) :=
  match e with
  | .tryAlloc _ => inferInstanceAs (Decidable True)
  | .free _ _ => inferInstanceAs (Decidable True)
  | .resizeAlloc _ _ => inferInstanceAs (Decidable (_ → _))
  | .store _ _ _ => inferInstanceAs (Decidable True)

/-- The allocation that an event is about. -/
def target : HeapEvent → Option Nat
  | .tryAlloc _ => none
  | .free ptr _ => some ptr
  | .resizeAlloc ptr _ => some ptr
  | .store ptr _ _ => some ptr

/-- The callers hold exactly the used blocks, each with room for what was asked for. -/
structure Owns (live : List (Nat × Nat)) (used : List Piece) : Prop where
  pointers : (live.map Prod.fst).Perm (used.map fun x => x.addr + sizeofMemdq)
  room : ∀ e ∈ live, ∀ x ∈ used, e.1 = x.addr + sizeofMemdq → e.2 + sizeofMemdq ≤ x.size

section Owns
variable {live : List (Nat × Nat)} {used used' : List Piece}

theorem Owns.perm (owns : Owns live used) (perm : used.Perm used') : Owns live used' where
  pointers := owns.pointers.trans (perm.map _)
  room := fun e inE x inX => owns.room e inE x (perm.mem_iff.mpr inX)

theorem Owns.add (owns : Owns live used) (fresh : x.addr ∉ used.map Piece.addr) (large : s + sizeofMemdq ≤ x.size) :
    Owns ((x.addr + sizeofMemdq, s) :: live) (x :: used) where
  pointers := by
    exact owns.pointers.cons _
  room := by
    intro e inE y inY same
    rcases mem_cons.mp inE with rfl | old
    · rcases mem_cons.mp inY with rfl | other
      · exact large
      · exact absurd (mem_map.mpr ⟨y, other, (Nat.add_right_cancel same).symm⟩) fresh
    · rcases mem_cons.mp inY with rfl | other
      · have listed : e.1 ∈ used.map fun x => x.addr + sizeofMemdq :=
          owns.pointers.mem_iff.mp (mem_map_of_mem old)
        obtain ⟨z, inZ, here⟩ := mem_map.mp listed
        exact absurd (mem_map.mpr ⟨z, inZ, Nat.add_right_cancel (here.trans same)⟩) fresh
      · exact owns.room e old y other same

theorem Owns.drop (owns : Owns live (x :: used)) (fresh : x.addr ∉ used.map Piece.addr) :
    Owns (live.filter fun e => e.1 ≠ x.addr + sizeofMemdq) used where
  pointers := by
    have kept := owns.pointers.filter fun ptr => decide (ptr ≠ x.addr + sizeofMemdq)
    rw [filter_map, map_cons, filter_cons_of_neg (by simp)] at kept
    refine kept.trans ?_
    rw [filter_eq_self.mpr]
    intro ptr listed
    obtain ⟨y, inY, rfl⟩ := mem_map.mp listed
    have other : y.addr ≠ x.addr := fun same => fresh (mem_map.mpr ⟨y, inY, same⟩)
    simpa using other
  room := fun e inE y inY => owns.room e (mem_of_mem_filter inE) y (mem_cons_of_mem x inY)

theorem Owns.change (owns : Owns live (x :: used)) (fresh : x.addr ∉ used.map Piece.addr)
    (large : s + sizeofMemdq ≤ n) :
    Owns (live.map fun e => if e.1 = x.addr + sizeofMemdq then (x.addr + sizeofMemdq, s) else e)
      ({ x with size := n } :: used) where
  pointers := by
    have same : (live.map fun e => if e.1 = x.addr + sizeofMemdq then (x.addr + sizeofMemdq, s) else e).map Prod.fst =
        live.map Prod.fst := by
      rw [map_map]
      refine map_congr_left fun e _ => ?_
      by_cases here : e.1 = x.addr + sizeofMemdq <;> simp [here]
    rw [same]
    exact owns.pointers
  room := by
    intro e inE y inY same
    obtain ⟨e, old, rfl⟩ := mem_map.mp inE
    by_cases here : e.1 = x.addr + sizeofMemdq
    · simp only [here, if_true] at same ⊢
      rcases mem_cons.mp inY with rfl | other
      · exact large
      · exact absurd (mem_map.mpr ⟨y, other, (Nat.add_right_cancel same).symm⟩) fresh
    · simp only [here, if_false] at same ⊢
      rcases mem_cons.mp inY with rfl | other
      · exact absurd same here
      · exact owns.room e old y (mem_cons_of_mem x other) same

end Owns

/-- The heap over the abstract blocks. -/
structure Inv (g : Geometry) (h : Heap) (pieces : List Piece) : Prop where
  here : h.pool.At g
  holds : Holds g h.pool.mem pieces
  coalesced : Coalesced pieces
  settled : ∀ x ∈ pieces, x.use ≠ .loose
  freemem : h.pool.freemem = freeBytes pieces
  owns : Owns h.live (usedPieces pieces)

theorem mem_usedPieces : x ∈ usedPieces pieces ↔ x ∈ pieces ∧ x.use ≠ .free := by
  simp [usedPieces]

theorem usedPieces_sorted {a b : Nat} (tiles : Tiles Piece.addr Piece.size a pieces b) :
    ((usedPieces pieces).map Piece.addr).Pairwise (· < ·) := by
  rw [pairwise_map]
  refine (tiles.pairwise.filter _).imp_of_mem ?_
  intro x y inX _ before
  have positive := (tiles.within (mem_of_mem_filter inX)).2.1
  omega

theorem usedPieces_nodup {a b : Nat} (tiles : Tiles Piece.addr Piece.size a pieces b) :
    ((usedPieces pieces).map Piece.addr).Nodup :=
  (usedPieces_sorted tiles).imp fun before => ne_of_lt before

theorem usedPieces_middle {a b : Nat} (tiles : Tiles Piece.addr Piece.size a pieces b)
    (split : usedPieces pieces = usedPieces l ++ x :: usedPieces r) :
    (usedPieces pieces).Perm (x :: usedPieces (l ++ r)) ∧ x.addr ∉ (usedPieces (l ++ r)).map Piece.addr := by
  have perm : (usedPieces pieces).Perm (x :: usedPieces (l ++ r)) := by
    rw [split, usedPieces_append]
    exact perm_middle
  have nodup := (perm.map addr).nodup_iff.mp (usedPieces_nodup tiles)
  exact ⟨perm, (nodup_cons.mp nodup).1⟩

theorem Inv.live_nodup (inv : Inv g h pieces) : (h.live.map Prod.fst).Nodup := by
  refine inv.owns.pointers.nodup_iff.mpr ?_
  have shifted : ((usedPieces pieces).map addr).map (· + sizeofMemdq) =
      (usedPieces pieces).map fun x => x.addr + sizeofMemdq := map_map ..
  rw [← shifted]
  exact (usedPieces_nodup inv.holds.tiles).map fun _ _ same => Nat.add_right_cancel same

theorem Inv.held (inv : Inv g h pieces) (member : ptr ∈ h.live.map Prod.fst) :
    ∃ l x r, pieces = l ++ x :: r ∧ x.use = .live ∧ ptr = x.addr + sizeofMemdq := by
  have listed := inv.owns.pointers.mem_iff.mp member
  obtain ⟨x, used, rfl⟩ := mem_map.mp listed
  obtain ⟨inside, notFree⟩ := mem_usedPieces.mp used
  obtain ⟨l, r, rfl⟩ := append_of_mem inside
  refine ⟨l, x, r, rfl, ?_, rfl⟩
  cases use : x.use with
  | free => exact absurd use notFree
  | live => rfl
  | loose => exact absurd use (inv.settled x inside)

theorem settled_of_used (used : ∀ x ∈ usedPieces pieces, x.use ≠ .loose) : ∀ x ∈ pieces, x.use ≠ .loose := by
  intro x member loose
  exact used x (mem_usedPieces.mpr ⟨member, by simp [loose]⟩) loose

theorem sane_iff (here : h.pool.At g) : h.Sane s ↔ g.Sane s := by
  unfold Sane Geometry.Sane
  rw [here.alignment]

theorem coalesced_carve (coalesced : Coalesced (l ++ x :: r)) (free : x.use = .free) :
    Coalesced (l ++ carve n x ++ r) := by
  have parts := isChain_append.mp coalesced
  unfold carve
  split
  · rw [append_assoc, singleton_append]
    refine isChain_append.mpr ⟨parts.1, coalesced_cons parts.2.1.tail (by simp), ?_⟩
    intro a _ b first both
    obtain rfl : { x with use := .live } = b := by simpa using first
    simp at both
  · rw [append_assoc, cons_append, singleton_append]
    refine isChain_append.mpr ⟨parts.1, ?_, ?_⟩
    · refine coalesced_cons (coalesced_cons parts.2.1.tail (by simp)) ?_
      intro _ b first
      obtain rfl : (⟨x.addr + (x.size - n), n, .live⟩ : Piece) = b := by simpa using first
      simp
    · intro a last b first both
      obtain rfl : { x with size := x.size - n } = b := by simpa using first
      exact parts.2.2 a last x rfl ⟨both.1, free⟩

theorem usedPieces_carve (free : x.use = .free) :
    usedPieces (l ++ carve n x ++ r) = usedPieces l ++ ⟨x.addr + (x.size - n), n, .live⟩ :: usedPieces r := by
  unfold carve
  split
  · next whole => simp [usedPieces, whole]
  · simp [usedPieces, free]

theorem Inv.tryAlloc (inv : Inv g h pieces) (sane : h.Sane s) : ∃ pieces', Inv g (h.act (.tryAlloc s)) pieces' ∧
      (∀ y ∈ pieces, y.use = .live → ∀ a, y.addr ≤ a → a < y.addr + y.size →
        (h.act (.tryAlloc s)).pool.mem a = h.pool.mem a) ∧
      ∃ q, h.pool.tryAlloc s = some q ∧
        (q.2 = null ↔ ∀ x ∈ pieces, x.use = .free → x.size < roundup h.pool.alignment s) ∧
        (q.2 = null → q.1 = h.pool) := by
  have sane' := (sane_iff inv.here).mp sane
  obtain ⟨divides, room, _⟩ := Geometry.roundup_spec sane'
  rw [inv.here.alignment]
  generalize size : roundup g.alignment s = n at *
  rcases inv.holds.tryAlloc inv.here sane' size.symm with ⟨none, fails⟩ |
    ⟨l, x, r, m', rfl, free, large, before, takes, holds, frame⟩
  · refine ⟨pieces, ?_, ?_, _, fails, ⟨fun _ => none, fun _ => rfl⟩, fun _ => rfl⟩
    · have same : h.act (.tryAlloc s) = h := by
        simp [act, fails]
      rw [same]
      exact inv
    · intro y _ _ a _ _
      simp [act, fails]
  · have inside := inv.holds.tiles.within (x := x) (by simp)
    have placed : x.addr + (x.size - n) + sizeofMemdq ≠ null := by
      simp only [sizeofMemdq, null]
      omega
    have state : h.act (.tryAlloc s) = ⟨{ h.pool with mem := m', freemem := h.pool.freemem - n },
        (x.addr + (x.size - n) + sizeofMemdq, s) :: h.live⟩ := by
      simp [act, takes, placed]
    have sum := freeBytes_carve (l := l) (r := r) free large
    obtain ⟨perm, fresh⟩ := usedPieces_middle holds.tiles (usedPieces_carve free)
    have unused : usedPieces (l ++ x :: r) = usedPieces (l ++ r) := by
      simp [usedPieces, free]
    rw [state]
    refine ⟨l ++ carve n x ++ r, ⟨inv.here.update, holds, coalesced_carve inv.coalesced free, ?_, ?_, ?_⟩, ?_, _, takes, ?_, ?_⟩
    · refine settled_of_used ?_
      intro y member
      rcases mem_cons.mp (perm.mem_iff.mp member) with rfl | old
      · simp
      · rw [← unused] at old
        exact inv.settled y (mem_usedPieces.mp old).1
    · have total := inv.freemem
      simp only
      omega
    · have owns := inv.owns
      rw [unused] at owns
      exact (owns.add fresh room).perm perm.symm
    · have untouched : Untouched (l ++ x :: r) x.addr h.pool.mem m' := by
        refine frame.untouched inv.holds.tiles inv.holds.grid ?_
        intro w member
        rcases mem_cons.mp member with rfl | listed
        · exact .inr ⟨x, by simp, .inr rfl, by omega, by omega⟩
        · exact .inl listed
      intro y member live a low high
      refine untouched y member live ?_ a low high
      intro same
      have eq := eq_of_addr inv.holds.tiles inv.holds.grid member (show x ∈ l ++ x :: r by simp) same
      subst eq
      exact absurd (live.symm.trans free) (by simp)
    · refine ⟨fun absurdly => absurd absurdly placed, fun small => ?_⟩
      exact absurd (small x (by simp) free) (Nat.not_lt.mpr large)
    · exact fun absurdly => absurd absurdly placed

theorem usedPieces_live (live : x.use = .live) : usedPieces (l ++ x :: r) = usedPieces l ++ x :: usedPieces r := by
  simp [usedPieces, live]

theorem Inv.free (inv : Inv g h (l ++ x :: r)) (live : x.use = .live) :
    ∃ pieces', Inv g (h.act (.free (x.addr + sizeofMemdq) s)) pieces' ∧
      Untouched (l ++ x :: r) x.addr h.pool.mem (h.act (.free (x.addr + sizeofMemdq) s)).pool.mem ∧
      (h.pool.free (x.addr + sizeofMemdq) s).isSome := by
  rcases inv.holds.free (s := s) inv.here live inv.coalesced with
    ⟨m', pieces', frees, holds, coalesced, bytes, used, frame⟩ | ⟨refuses, _⟩
  · have state : h.act (.free (x.addr + sizeofMemdq) s) = ⟨{ h.pool with mem := m', freemem := h.pool.freemem + x.size },
        h.live.filter fun e => e.1 ≠ x.addr + sizeofMemdq⟩ := by
      simp [act, frees]
    obtain ⟨perm, fresh⟩ := usedPieces_middle inv.holds.tiles (usedPieces_live live)
    have unused : freeBytes (l ++ x :: r) = freeBytes (l ++ r) := by
      simp [freeBytes, live]
    rw [state]
    refine ⟨pieces', ⟨inv.here.update, holds, coalesced, ?_, ?_, ?_⟩, ?_, by rw [frees]; rfl⟩
    · refine settled_of_used ?_
      rw [used]
      intro y member
      refine inv.settled y ?_
      have inside := (mem_usedPieces.mp member).1
      simp only [mem_append, mem_cons] at inside ⊢
      tauto
    · have total := inv.freemem
      simp only
      omega
    · rw [used]
      exact (inv.owns.perm perm).drop fresh
    · refine frame.untouched inv.holds.tiles inv.holds.grid ?_
      intro w member
      rcases mem_cons.mp member with rfl | listed
      · exact .inr ⟨x, by simp, .inr rfl, le_rfl, by
          have room := header_le inv.holds.tiles inv.holds.grid (x := x) (by simp)
          omega⟩
      · exact .inl listed
  · have state : h.act (.free (x.addr + sizeofMemdq) s) = h := by
      simp [act, refuses]
    rw [state]
    exact ⟨_, inv, Untouched.refl, by rw [refuses]; rfl⟩

theorem Inv.resizeAlloc (inv : Inv g h (l ++ x :: r)) (live : x.use = .live) (sane : h.Sane s)
    (noWrap : h.NoWrap (.resizeAlloc (x.addr + sizeofMemdq) s)) :
    ∃ pieces', Inv g (h.act (.resizeAlloc (x.addr + sizeofMemdq) s)) pieces' ∧
      Untouched (l ++ x :: r) x.addr h.pool.mem (h.act (.resizeAlloc (x.addr + sizeofMemdq) s)).pool.mem ∧
      (h.pool.resizeAlloc (x.addr + sizeofMemdq) s).isSome ∧
      (h.act (.resizeAlloc (x.addr + sizeofMemdq) s) = h ∨ usedPieces pieces' =
        usedPieces l ++ { x with size := roundup g.alignment s } :: usedPieces r) := by
  have sane' := (sane_iff inv.here).mp sane
  obtain ⟨divides, room, _⟩ := Geometry.roundup_spec sane'
  have header : alloc2memdq (x.addr + sizeofMemdq) = x.addr := Nat.add_sub_cancel ..
  have inside : r = [] → x.addr + roundup g.alignment s < 2 ^ 32 := by
    rintro rfl
    have ends : x.addr + x.size = g.top := (tiles_append.mp inv.holds.tiles).2.2
    simp only [NoWrap, header, inv.holds.sizes x (by simp), inv.here.top, inv.here.alignment] at noWrap
    exact noWrap ends
  rcases inv.holds.resizeAlloc inv.here live (fun y member => inv.settled y (by simp [member])) inv.coalesced sane' rfl
    inside with ⟨m', f, pieces', resizes, holds, coalesced, bytes, used, untouched⟩ | ⟨refuses, _⟩
  · have placed : x.addr + sizeofMemdq ≠ null := by
      simp only [sizeofMemdq, null]
      omega
    have state : h.act (.resizeAlloc (x.addr + sizeofMemdq) s) = ⟨{ h.pool with mem := m', freemem := f },
        h.live.map fun e => if e.1 = x.addr + sizeofMemdq then (x.addr + sizeofMemdq, s) else e⟩ := by
      simp [act, resizes, placed]
    obtain ⟨perm, fresh⟩ := usedPieces_middle inv.holds.tiles (usedPieces_live live)
    obtain ⟨perm', _⟩ := usedPieces_middle holds.tiles used
    have unused : freeBytes (l ++ x :: r) = freeBytes (l ++ r) := by
      simp [freeBytes, live]
    rw [state]
    refine ⟨pieces', ⟨inv.here.update, holds, coalesced, ?_, ?_, ?_⟩, untouched, by rw [resizes]; rfl, .inr used⟩
    · refine settled_of_used ?_
      intro y member
      rcases mem_cons.mp (perm'.mem_iff.mp member) with rfl | old
      · simp [live]
      · refine inv.settled y ?_
        have inside := (mem_usedPieces.mp old).1
        simp only [mem_append, mem_cons] at inside ⊢
        tauto
    · have total := inv.freemem
      simp only
      omega
    · exact ((inv.owns.perm perm).change fresh room).perm perm'.symm
  · have state : h.act (.resizeAlloc (x.addr + sizeofMemdq) s) = h := by
      simp [act, refuses]
    rw [state]
    exact ⟨_, inv, Untouched.refl, by rw [refuses]; rfl, .inl rfl⟩

theorem Inv.store (inv : Inv g h (l ++ x :: r)) {value : Nat} (low : x.addr + sizeofMemdq ≤ a)
    (high : a < x.addr + x.size) :
    Inv g (h.act (.store ptr a value)) (l ++ x :: r) ∧
      Untouched (l ++ x :: r) x.addr h.pool.mem (h.act (.store ptr a value)).pool.mem := by
  have outside : ∀ w ∈ headers g (l ++ x :: r), a < w ∨ w + sizeofMemdq ≤ a := by
    intro w member
    rcases mem_headers.mp member with rfl | ⟨y, inY, rfl⟩
    · have within := inv.holds.tiles.within (x := x) (by simp)
      have apart := g.apart
      omega
    · have room := header_le inv.holds.tiles inv.holds.grid inY
      rcases inv.holds.tiles.apart (x := x) (by simp) inY with same | before | after
      · subst same
        omega
      · omega
      · omega
  have fields : ∀ w ∈ headers g (l ++ x :: r), (h.act (.store ptr a value)).pool.mem.next w = h.pool.mem.next w ∧
      (h.act (.store ptr a value)).pool.mem.prev w = h.pool.mem.prev w ∧
      (h.act (.store ptr a value)).pool.mem.size w = h.pool.mem.size w := by
    intro w member
    have away := outside w member
    simp only [sizeofMemdq] at away
    exact ⟨update_of_ne (by omega) _ _, update_of_ne (by omega) _ _,
      update_of_ne (by omega) _ _⟩
  refine ⟨⟨inv.here.update,
    ⟨inv.holds.tiles, inv.holds.grid, ?_, ?_, ?_, ?_⟩, inv.coalesced, inv.settled, inv.freemem, inv.owns⟩, ?_⟩
  · intro y member
    exact (fields _ (addr_mem_headers member)).2.2.trans (inv.holds.sizes y member)
  · intro y member live
    obtain ⟨next, prev, _⟩ := fields _ (addr_mem_headers member)
    obtain ⟨magicPrev, magicNext⟩ := inv.holds.magic y member live
    exact ⟨prev.trans magicPrev, next.trans magicNext⟩
  · refine inv.holds.ring.congr ?_ ?_
    · intro w member
      exact (fields w (circuit_subset (mem_of_mem_dropLast member))).1
    · intro w member
      exact (fields w (circuit_subset (mem_of_mem_tail member))).2.1
  · exact (fields _ head_mem_headers).2.2.trans inv.holds.headSize
  · intro y member _ other b lowB highB
    refine update_of_ne ?_ _ _
    rintro rfl
    rcases inv.holds.tiles.apart (x := x) (by simp) member with same | before | after
    · exact other (congrArg addr same.symm)
    · omega
    · omega

theorem Inv.step (inv : Inv g h pieces) (ok : h.Ok e) (noWrap : h.NoWrap e) : ∃ pieces', Inv g (h.act e) pieces' ∧
      ∀ y ∈ pieces, y.use = .live → target e ≠ some (y.addr + sizeofMemdq) → ∀ a, y.addr ≤ a →
        a < y.addr + y.size → (h.act e).pool.mem a = h.pool.mem a := by
  cases e with
  | tryAlloc s =>
    obtain ⟨pieces', inv', untouched, _⟩ := inv.tryAlloc ok
    exact ⟨pieces', inv', fun y member live _ => untouched y member live⟩
  | free ptr s =>
    obtain ⟨l, x, r, rfl, live, rfl⟩ := inv.held ok.2
    obtain ⟨pieces', inv', untouched, _⟩ := inv.free live
    refine ⟨pieces', inv', fun y member liveY other => untouched y member liveY ?_⟩
    exact fun same => other (by simp [target, same])
  | resizeAlloc ptr s =>
    obtain ⟨l, x, r, rfl, live, rfl⟩ := inv.held ok.2
    obtain ⟨pieces', inv', untouched, _⟩ := inv.resizeAlloc live ok.1 noWrap
    refine ⟨pieces', inv', fun y member liveY other => untouched y member liveY ?_⟩
    exact fun same => other (by simp [target, same])
  | store ptr a v =>
    obtain ⟨_, held, member, rfl, low, high⟩ := ok
    obtain ⟨l, x, r, rfl, live, pointer⟩ := inv.held (mem_map_of_mem member)
    have room := inv.owns.room _ member x (mem_usedPieces.mpr ⟨by simp, by simp [live]⟩) pointer
    rw [pointer] at low high ⊢
    have inside : a < x.addr + x.size := by omega
    refine ⟨l ++ x :: r, (inv.store low inside).1, fun y member liveY other => ?_⟩
    refine (inv.store low inside).2 y member liveY ?_
    exact fun same => other (by simp [target, same])

end Heap

end Ecos
