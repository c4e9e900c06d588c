import Mathlib.Data.List.Nodup
import Ecos.Flash.Ranges

namespace Ecos.Flash
open List Nat
variable {devs : List Dev} {d e : Dev} {mem mem' mem'' : Mem} {base len addr count fuel : Nat} {l : List (Nat × Nat)}
  {b : Nat × Nat} {S S' : Nat × Nat → Prop}

theorem Wiped.trans (first : Wiped S mem mem') (second : Wiped S' mem' mem'') :
    Wiped (fun b => S b ∨ S' b) mem mem'' := by
  intro x
  constructor
  · rintro ⟨b, either, inside⟩
    by_cases later : ∃ b, S' b ∧ b.1 ≤ x ∧ x < b.1 + b.2
    · exact (second x).1 later
    · rw [(second x).2 later]
      rcases either with here | there
      · exact (first x).1 ⟨b, here, inside⟩
      · exact absurd ⟨b, there, inside⟩ later
  · intro outside
    rw [(second x).2 fun ⟨b, there, inside⟩ => outside ⟨b, .inr there, inside⟩]
    exact (first x).2 fun ⟨b, here, inside⟩ => outside ⟨b, .inl here, inside⟩

theorem Wiped.congr (wiped : Wiped S mem mem') (same : ∀ b, S b ↔ S' b) : Wiped S' mem mem' := by
  obtain rfl : S = S' := funext fun b => propext (same b)
  exact wiped

theorem Wiped.refl (none : ∀ b, ¬S b) : Wiped S mem mem := fun _ =>
  ⟨fun ⟨b, here, _⟩ => absurd here (none b), fun _ => rfl⟩

theorem Dev.block_unique {c : Nat × Nat} (left : b ∈ d.blocks) (right : c ∈ d.blocks) (inLeft : b.1 ≤ addr ∧ addr < b.1 + b.2)
    (inRight : c.1 ≤ addr ∧ addr < c.1 + c.2) : b = c := by
  rcases d.tiles.apart left right with same | before | after
  · exact same
  · omega
  · omega

theorem Dev.wiped_block (member : b ∈ d.blocks) :
    Wiped (· = b) mem (if (!d.indirect && (window mem b.1 b.2).all (· == 0xFF)) = true then mem else d.eraseBlock mem b.1) := by
  have positive := (d.tiles.within member).2.1
  intro x
  constructor
  · rintro ⟨_, rfl, low, high⟩
    split
    · next blank =>
      simp only [Bool.and_eq_true, all_eq_true, window, mem_map] at blank
      simpa using blank.2 (mem x) ⟨x, mem_range'_1.mpr ⟨low, high⟩, rfl⟩
    · rw [eraseBlock, if_pos]
      exact any_eq_true.mpr ⟨_, member, by simp only [decide_eq_true_eq]; omega⟩
  · intro outside
    split
    · rfl
    · rw [eraseBlock, if_neg]
      intro found
      obtain ⟨c, there, inside⟩ := any_eq_true.mp found
      rw [decide_eq_true_eq] at inside
      obtain rfl := @Dev.block_unique d b.1 _ _ member there ⟨le_rfl, by omega⟩ ⟨inside.1, inside.2.1⟩
      exact outside ⟨_, rfl, inside.2.2⟩

/-- What the loop of `cyg_flash_erase` makes of the blocks `l`. -/
def Dev.LoopErases (d : Dev) (l : List (Nat × Nat)) (fuel : Nat) (mem : Mem) (addr count : Nat) : Prop :=
  (d.eraseLoop fuel mem addr count).1 = (l.filter fun b => decide (b.1 < addr + count)).map Prod.fst ∧
    Wiped (fun b => b ∈ l ∧ b.1 < addr + count) mem (d.eraseLoop fuel mem addr count).2

theorem Dev.loopErases_zero (tiles : Tiles Prod.fst Prod.snd addr l (d.last + 1)) : d.LoopErases l fuel mem addr 0 := by
  have none : ∀ b ∈ l, ¬b.1 < addr + 0 := fun b member => by
    have := (tiles.within member).1
    omega
  have stops : d.eraseLoop fuel mem addr 0 = ([], mem) := by cases fuel <;> rfl
  rw [LoopErases, stops, filter_eq_nil_iff.mpr (by simpa using none)]
  exact ⟨rfl, .refl fun b both => none b both.1 both.2⟩

theorem Dev.loopErases (blocks : ∀ b ∈ l, b ∈ d.blocks) (tiles : Tiles Prod.fst Prod.snd addr l (d.last + 1))
    (fits : addr + count ≤ d.last + 1) (enough : count ≤ fuel) : d.LoopErases l fuel mem addr count := by
  induction l generalizing addr count fuel mem with
  | nil =>
    obtain rfl : addr = d.last + 1 := tiles
    obtain rfl : count = 0 := by omega
    exact loopErases_zero rfl
  | cons b l ih =>
    by_cases nothing : count = 0
    · subst nothing
      exact loopErases_zero tiles
    obtain ⟨rfl, positive, rest⟩ := tiles
    have member := blocks b (mem_cons_self ..)
    have size := @Dev.blockSize_eq _ b.1 d member le_rfl (by omega)
    obtain ⟨fuel, rfl⟩ : ∃ n, fuel = n + 1 := ⟨fuel - 1, by omega⟩
    set left := (if count < b.2 then b.2 else count) - b.2 with leftIs
    have later : ∀ c ∈ l, (c.1 < b.1 + b.2 + left ↔ c.1 < b.1 + count) := by
      intro c member
      have := (rest.within member).1
      split at leftIs <;> omega
    set mem' := if (!d.indirect && (window mem b.1 b.2).all (· == 0xFF)) = true then mem else d.eraseBlock mem b.1
    have unfolded : d.eraseLoop (fuel + 1) mem b.1 count =
        (b.1 :: (d.eraseLoop fuel mem' (b.1 + b.2) left).1, (d.eraseLoop fuel mem' (b.1 + b.2) left).2) := by
      rw [eraseLoop, if_neg nothing, size]
    have fits' : b.1 + b.2 + left ≤ d.last + 1 := by
      have := rest.le
      split at leftIs <;> omega
    have enough' : left ≤ fuel := by split at leftIs <;> omega
    obtain ⟨seen, wiped⟩ : d.LoopErases l fuel mem' (b.1 + b.2) left :=
      ih (fun c there => blocks c (mem_cons_of_mem _ there)) rest fits' enough'
    refine ⟨?_, ?_⟩
    · rw [unfolded, filter_cons_of_pos (by simp only [decide_eq_true_eq]; omega), map_cons]
      have same : (l.filter fun c => decide (c.1 < b.1 + b.2 + left)) = l.filter fun c => decide (c.1 < b.1 + count) :=
        filter_congr fun c there => decide_eq_decide.mpr (later c there)
      rw [← same, ← seen]
    · rw [unfolded]
      refine ((d.wiped_block member).trans wiped).congr fun c => ?_
      constructor
      · rintro (rfl | ⟨there, before⟩)
        · exact ⟨mem_cons_self .., by omega⟩
        · exact ⟨mem_cons_of_mem _ there, (later c there).mp before⟩
      · rintro ⟨there, before⟩
        rcases mem_cons.mp there with same | further
        · exact .inl same
        · exact .inr ⟨further, (later c further).mpr before⟩

theorem Dev.block_next (member : b ∈ d.blocks) (more : b.1 + b.2 ≤ d.last) : ∃ c ∈ d.blocks, c.1 = b.1 + b.2 := by
  have within := d.tiles.within member
  obtain ⟨c, there, low, high⟩ := @Dev.block_of (b.1 + b.2) d (by omega) more
  refine ⟨c, there, ?_⟩
  rcases d.tiles.apart member there with rfl | before | after <;> omega

/-- Calls of a driver that follow each other, each within a block. -/
def Dev.Chunked (d : Dev) (addr count : Nat) (calls : List (Nat × Nat)) : Prop :=
  Tiles Prod.fst Prod.snd addr calls (addr + count) ∧
    ∀ c ∈ calls, ∃ b ∈ d.blocks, b.1 ≤ c.1 ∧ c.1 + c.2 ≤ b.1 + b.2

theorem Dev.chunked_nil : d.Chunked addr 0 [] := ⟨rfl, by simp⟩

theorem Dev.chunked_chunkLoop {offset : Nat} (member : b ∈ d.blocks) (low : b.1 + offset = addr) (high : offset < b.2)
    (fits : addr + count ≤ d.last + 1) (enough : count ≤ fuel) :
    d.Chunked addr count (d.chunkLoop fuel addr count offset) := by
  induction fuel generalizing b addr count offset with
  | zero =>
    obtain rfl : count = 0 := by omega
    exact chunked_nil
  | succ fuel ih =>
    by_cases nothing : count = 0
    · subst nothing
      exact chunked_nil
    have size := @Dev.blockSize_eq _ addr d member (by omega) (by omega)
    rw [chunkLoop, if_neg nothing, size]
    dsimp only
    by_cases more : count > b.2 - offset
    · rw [if_pos more]
      obtain ⟨c, there, begins⟩ := d.block_next member (by omega)
      have positive := (d.tiles.within there).2.1
      obtain ⟨tiles, inside⟩ : d.Chunked (addr + (b.2 - offset)) (count - (b.2 - offset))
          (d.chunkLoop fuel (addr + (b.2 - offset)) (count - (b.2 - offset)) 0) :=
        ih there (by omega) positive (by omega) (by omega)
      have ends : addr + (b.2 - offset) + (count - (b.2 - offset)) = addr + count := by omega
      rw [ends] at tiles
      refine ⟨⟨rfl, by dsimp only; omega, tiles⟩, fun call among => ?_⟩
      rcases mem_cons.mp among with rfl | later
      · exact ⟨b, member, by dsimp only; omega, by dsimp only; omega⟩
      · exact inside call later
    · rw [if_neg more, Nat.sub_self]
      have stops : d.chunkLoop fuel (addr + count) 0 0 = [] := by cases fuel <;> rfl
      rw [stops]
      refine ⟨⟨rfl, by dsimp only; omega, rfl⟩, fun call among => ?_⟩
      obtain rfl := mem_singleton.mp among
      exact ⟨b, member, by dsimp only; omega, by dsimp only; omega⟩

/-- `flash_block_begin` is right at this address. -/
def Dev.Aligned (d : Dev) (addr : Nat) : Prop := ∀ b ∈ d.blocks, b.1 ≤ addr → addr < b.1 + b.2 → d.blockBegin addr = b.1

theorem Dev.aligned_start : d.Aligned d.start := by
  intro b member low high
  rw [d.blockBegin_start]
  have := (d.tiles.within member).1
  omega

theorem Dev.chunked_chunks (low : d.start ≤ base) (high : base ≤ d.last) (aligned : count = 0 ∨ d.Aligned base)
    (fits : base + count ≤ d.last + 1) : d.Chunked base count (d.chunks base count) := by
  rcases aligned with rfl | aligned
  · exact chunked_nil
  · obtain ⟨b, member, begins, ends⟩ := d.block_of low high
    have start := aligned b member begins ends
    rw [chunks, start]
    split <;> exact chunked_chunkLoop member (by omega) (by omega) fits le_rfl

theorem pieces_zipIdx {calls : List (Nat × Nat)} {ram : List UInt8} (tiles : Tiles Prod.fst Prod.snd addr calls (addr + count))
    (long : count ≤ ram.length) : (pieces calls ram).flatMap (fun c => c.2.zipIdx c.1) = (ram.take count).zipIdx addr := by
  induction calls generalizing addr count ram with
  | nil =>
    obtain rfl : count = 0 := by
      have : addr = addr + count := tiles
      omega
    simp [pieces]
  | cons c calls ih =>
    obtain ⟨rfl, positive, rest⟩ := tiles
    have le := rest.le
    obtain ⟨more, rfl⟩ : ∃ more, count = c.2 + more := ⟨count - c.2, by omega⟩
    have left : more ≤ (ram.drop c.2).length := by rw [length_drop]; omega
    have later := ih (by rwa [← add_assoc] at rest) left
    rw [pieces, flatMap_cons, later, take_add, zipIdx_append, length_take, min_eq_left (by omega)]

theorem pieces_length {calls : List (Nat × Nat)} {ram : List UInt8} (tiles : Tiles Prod.fst Prod.snd addr calls (addr + count))
    (long : count ≤ ram.length) {c : Nat × List UInt8} (member : c ∈ pieces calls ram) : (c.1, c.2.length) ∈ calls := by
  induction calls generalizing addr count ram with
  | nil => simp [pieces] at member
  | cons b calls ih =>
    obtain ⟨rfl, positive, rest⟩ := tiles
    have le := rest.le
    obtain ⟨more, rfl⟩ : ∃ more, count = b.2 + more := ⟨count - b.2, by omega⟩
    rcases mem_cons.mp member with rfl | later
    · simp only [length_take, min_eq_left (show b.2 ≤ ram.length by omega)]
      exact mem_cons_self ..
    · exact mem_cons_of_mem _ (ih (by rwa [← add_assoc] at rest) (by rw [length_drop]; omega) later)

theorem window_calls {calls : List (Nat × Nat)} (tiles : Tiles Prod.fst Prod.snd addr calls (addr + count)) :
    (calls.flatMap fun c => window mem c.1 c.2) = window mem addr count := by
  induction calls generalizing addr count with
  | nil =>
    obtain rfl : count = 0 := by
      have : addr = addr + count := tiles
      omega
    rfl
  | cons c calls ih =>
    obtain ⟨rfl, positive, rest⟩ := tiles
    have le := rest.le
    obtain ⟨more, rfl⟩ : ∃ more, count = c.2 + more := ⟨count - c.2, by omega⟩
    rw [flatMap_cons, ih (by rwa [← add_assoc] at rest), window_append]

/-- The devices do not overlap. -/
def Apart (devs : List Dev) : Prop := devs.Pairwise fun d e => d.last < e.start ∨ e.last < d.start

/-- Every address of the range is in a device. -/
def Covered (devs : List Dev) (base len : Nat) : Prop :=
  ∀ a, base ≤ a → a < base + len → ∃ d ∈ devs, d.start ≤ a ∧ a ≤ d.last

theorem findDev_some (found : findDev devs addr = some d) : d ∈ devs ∧ d.start ≤ addr ∧ addr ≤ d.last := by
  have holds := find?_some found
  exact ⟨mem_of_find?_eq_some found, by simpa using holds⟩

theorem Apart.same (apart : Apart devs) (left : d ∈ devs) (right : e ∈ devs) (inLeft : d.start ≤ addr ∧ addr ≤ d.last)
    (inRight : e.start ≤ addr ∧ addr ≤ e.last) : d = e := by
  by_contra ne
  have symmetric : Std.Symm fun d e : Dev => d.last < e.start ∨ e.last < d.start := ⟨fun _ _ => Or.symm⟩
  have either : d.last < e.start ∨ e.last < d.start := Pairwise.forall apart left right ne
  omega

theorem Apart.findDev (apart : Apart devs) (member : d ∈ devs) (low : d.start ≤ addr) (high : addr ≤ d.last) :
    Flash.findDev devs addr = some d := by
  obtain ⟨e, found⟩ : ∃ e, Flash.findDev devs addr = some e :=
    Option.isSome_iff_exists.mp (find?_isSome.mpr ⟨d, member, by simpa using ⟨low, high⟩⟩)
  obtain ⟨there, inside⟩ := findDev_some found
  rw [found, apart.same there member inside ⟨low, high⟩]

theorem Dev.room_eq (low : d.start ≤ base) (high : base ≤ d.last) : sub32 (d.last + 1) base = d.last + 1 - base := by
  have := d.part
  exact sub32_eq (by omega) (by omega)

theorem Apart.next (apart : Apart devs) (found : Flash.findDev devs base = some d) (covered : Covered devs base len)
    (past : len > d.last + 1 - base) : ∃ e, (d.last + 1) % 2 ^ 32 = d.last + 1 ∧ Flash.findDev devs (d.last + 1) = some e ∧
      e.start = d.last + 1 ∧ Covered devs (d.last + 1) (len - (d.last + 1 - base)) := by
  obtain ⟨member, low, high⟩ := findDev_some found
  obtain ⟨e, there, begins, ends⟩ := covered (d.last + 1) (by omega) (by omega)
  have top := e.top
  have starts : e.start = d.last + 1 := by
    by_contra before
    obtain rfl := @Apart.same _ _ _ d.last apart member there ⟨d.proper, le_rfl⟩ ⟨by omega, by omega⟩
    omega
  exact ⟨e, mod_eq_of_lt (by omega), apart.findDev there begins ends, starts,
    fun a from' to' => covered a (by omega) (by omega)⟩

theorem program_spec {ram : List UInt8} (apart : Apart devs) (found : Flash.findDev devs base = some d)
    (covered : Covered devs base ram.length) (aligned : ram.length = 0 ∨ d.Aligned base) (enough : ram.length < fuel) :
    ∃ calls, cygFlashProgram devs fuel base ram = some (.ok, calls) ∧
      calls.flatMap (fun c => c.2.zipIdx c.1) = ram.zipIdx base ∧ ∀ c ∈ calls, InBlock devs c.1 c.2.length := by
  induction fuel generalizing base ram d with
  | zero => omega
  | succ fuel ih =>
    obtain ⟨member, low, high⟩ := findDev_some found
    have room := d.room_eq low high
    have countIs := @Dev.count_eq d _ ram.length _ low high (le_refl base) low
    set count := min (base + ram.length) (d.last + 1) - base with count_def
    have chunked : d.Chunked base count (d.chunks base count) := by
      refine d.chunked_chunks low high ?_ (by omega)
      rcases aligned with none | aligned
      · left
        omega
      · exact .inr aligned
    have inside : ∀ c ∈ pieces (d.chunks base count) ram, InBlock devs c.1 c.2.length := fun c among =>
      ⟨d, member, chunked.2 _ (pieces_length chunked.1 (by omega) among)⟩
    have bytes := @pieces_zipIdx _ _ _ ram chunked.1 (by omega)
    rw [cygFlashProgram, found]
    dsimp only
    rw [countIs, room]
    by_cases past : ram.length > d.last + 1 - base
    · rw [if_pos past]
      obtain ⟨e, mod, next, starts, covered'⟩ := apart.next found covered past
      have whole : count = d.last + 1 - base := by omega
      have length : (ram.drop count).length = ram.length - (d.last + 1 - base) := by rw [length_drop, whole]
      have covers : Covered devs (d.last + 1) (ram.drop count).length := by rwa [length]
      obtain ⟨calls, run, bytes', inside'⟩ := ih next covers
        (.inr (starts ▸ e.aligned_start)) (by omega)
      rw [mod, run]
      refine ⟨_, rfl, ?_, fun c among => ?_⟩
      · have place : base + count = d.last + 1 := by omega
        rw [flatMap_append, bytes, bytes', ← place]
        conv_rhs => rw [← take_append_drop count ram, zipIdx_append, length_take, min_eq_left (by omega)]
      · rcases mem_append.mp among with here | later
        · exact inside c here
        · exact inside' c later
    · rw [if_neg past]
      have whole : count = ram.length := by omega
      rw [whole, take_length] at bytes
      refine ⟨_, rfl, ?_, ?_⟩
      · rw [whole]
        exact bytes
      · exact inside

theorem read_spec (apart : Apart devs) (found : Flash.findDev devs base = some d) (covered : Covered devs base len)
    (aligned : len = 0 ∨ d.Aligned base) (enough : len < fuel) :
    ∃ calls, cygFlashRead devs mem fuel base len = some (.ok, calls, window mem base len) ∧
      ∀ c ∈ calls, InBlock devs c.1 c.2 := by
  induction fuel generalizing base len d with
  | zero => omega
  | succ fuel ih =>
    obtain ⟨member, low, high⟩ := findDev_some found
    have room := d.room_eq low high
    have countIs := @Dev.count_eq d _ len _ low high (le_refl base) low
    set count := min (base + len) (d.last + 1) - base with count_def
    have chunked : d.Chunked base count (d.chunks base count) := by
      refine d.chunked_chunks low high ?_ (by omega)
      rcases aligned with none | aligned
      · left
        omega
      · exact .inr aligned
    have inside : ∀ c ∈ (if d.indirect then d.chunks base count else []), InBlock devs c.1 c.2 := by
      intro c among
      split at among
      · exact ⟨d, member, chunked.2 c among⟩
      · simp at among
    have bytes : (if d.indirect then (if d.indirect then d.chunks base count else []).flatMap fun c => window mem c.1 c.2
        else window mem base count) = window mem base count := by
      split
      · exact window_calls chunked.1
      · rfl
    rw [cygFlashRead, found]
    dsimp only
    rw [countIs, room, bytes]
    by_cases past : len > d.last + 1 - base
    · rw [if_pos past]
      obtain ⟨e, mod, next, starts, covered'⟩ := apart.next found covered past
      obtain ⟨calls, run, inside'⟩ := ih next covered' (.inr (starts ▸ e.aligned_start)) (by omega)
      rw [mod, run]
      refine ⟨(if d.indirect then d.chunks base count else []) ++ calls, ?_, fun c among => ?_⟩
      · have place : d.last + 1 = base + count := by omega
        have split : len = count + (len - (d.last + 1 - base)) := by omega
        have joined : window mem base count ++ window mem (d.last + 1) (len - (d.last + 1 - base)) = window mem base len := by
          rw [place, ← window_append, ← place, ← split]
        rw [Option.map_some, joined]
      · rcases mem_append.mp among with here | later
        · exact inside c here
        · exact inside' c later
    · rw [if_neg past]
      have whole : count = len := by omega
      rw [whole] at inside ⊢
      exact ⟨_, rfl, inside⟩

theorem Apart.touched_within (apart : Apart devs) (member : d ∈ devs) (inside : d.start ≤ base) (ends : base + len ≤ d.last + 1) :
    Touched devs base len b ↔ b ∈ d.blocks ∧ ∃ a, b.1 ≤ a ∧ a < b.1 + b.2 ∧ base ≤ a ∧ a < base + len := by
  constructor
  · rintro ⟨e, there, block, a, low, high, from', to'⟩
    have within := e.tiles.within block
    obtain rfl := @Apart.same _ _ _ a apart there member ⟨by omega, by omega⟩ ⟨by omega, by omega⟩
    exact ⟨block, a, low, high, from', to'⟩
  · rintro ⟨block, touches⟩
    exact ⟨d, member, block, touches⟩

theorem touched_split {first : Nat} (le : first ≤ len) :
    Touched devs base len b ↔ Touched devs base first b ∨ Touched devs (base + first) (len - first) b := by
  constructor
  · rintro ⟨e, there, block, a, low, high, from', to'⟩
    by_cases early : a < base + first
    · exact .inl ⟨e, there, block, a, low, high, from', early⟩
    · exact .inr ⟨e, there, block, a, low, high, by omega, by omega⟩
  · rintro (⟨e, there, block, a, low, high, from', to'⟩ | ⟨e, there, block, a, low, high, from', to'⟩)
    · exact ⟨e, there, block, a, low, high, from', by omega⟩
    · exact ⟨e, there, block, a, low, high, by omega, by omega⟩

/-- The part of `cyg_flash_erase` that is about one device. -/
theorem Apart.eraseLoop (apart : Apart devs) (member : d ∈ devs) (low : d.start ≤ base) (high : base ≤ d.last)
    (some : 0 < count) (fits : base + count ≤ d.last + 1) (aligned : d.Aligned base) :
    let block := d.blockBegin base
    let seen := d.eraseLoop (base + count - block) mem block (base + count - block)
    seen.1.Nodup ∧ (∀ a, a ∈ seen.1 ↔ ∃ b, Touched devs base count b ∧ b.1 = a) ∧
      Wiped (Touched devs base count) mem seen.2 := by
  obtain ⟨b, block, begins, ends⟩ := d.block_of low high
  have start := aligned b block begins ends
  obtain ⟨before, after, blocks⟩ := append_of_mem block
  have tiles := d.tiles
  rw [blocks, tiles_append] at tiles
  obtain ⟨left, positive, right⟩ := tiles
  have suffix : Tiles Prod.fst Prod.snd b.1 (b :: after) (d.last + 1) := ⟨rfl, positive, right⟩
  have among : ∀ c ∈ b :: after, c ∈ d.blocks := fun c there => by
    rw [blocks]
    exact mem_append_right _ there
  have touched : ∀ c, Touched devs base count c ↔ c ∈ b :: after ∧ c.1 < b.1 + (base + count - b.1) := by
    intro c
    rw [apart.touched_within member low fits]
    constructor
    · rintro ⟨there, a, cLow, cHigh, from', to'⟩
      refine ⟨?_, by omega⟩
      rw [blocks] at there
      rcases mem_append.mp there with early | late
      · have := (left.within early).2.2
        omega
      · exact late
    · rintro ⟨there, less⟩
      have within := suffix.within there
      by_cases first : c.1 ≤ base
      · refine ⟨among c there, base, first, ?_, le_rfl, by omega⟩
        rcases d.tiles.apart block (among c there) with rfl | apart' | apart'
        · exact ends
        · omega
        · omega
      · exact ⟨among c there, c.1, le_rfl, by omega, by omega, by omega⟩
  obtain ⟨seen, wiped⟩ := @Dev.loopErases d mem _ (base + count - b.1) _ _ among suffix (by omega) le_rfl
  rw [start]
  refine ⟨?_, fun a => ?_, wiped.congr fun c => (touched c).symm⟩
  · rw [seen]
    have ordered : (b :: after).Pairwise fun x y => x.1 + x.2 ≤ y.1 := suffix.pairwise
    refine Nodup.map_on (fun x xThere y yThere same => ?_) ?_
    · have xIn := mem_of_mem_filter xThere
      have yIn := mem_of_mem_filter yThere
      rcases suffix.apart xIn yIn with is | less | less
      · exact is
      · have := (suffix.within xIn).2.1
        omega
      · have := (suffix.within yIn).2.1
        omega
    · refine Nodup.filter _ (ordered.imp_of_mem fun {x y} xIn _ less same => ?_)
      subst same
      have := (suffix.within xIn).2.1
      omega
  · rw [seen, mem_map]
    constructor
    · rintro ⟨c, there, rfl⟩
      obtain ⟨c', less⟩ := mem_filter.mp there
      exact ⟨c, (touched c).mpr ⟨c', by simpa using less⟩, rfl⟩
    · rintro ⟨c, there, rfl⟩
      obtain ⟨c', less⟩ := (touched c).mp there
      exact ⟨c, mem_filter.mpr ⟨c', by simpa using less⟩, rfl⟩

theorem erase_spec (apart : Apart devs) (found : Flash.findDev devs base = some d) (covered : Covered devs base len)
    (some : 0 < len) (aligned : d.Aligned base) (enough : len < fuel) :
    ∃ seen mem', cygFlashErase devs fuel mem base len = Option.some (.ok, seen, mem') ∧ seen.Nodup ∧
      (∀ a, a ∈ seen ↔ ∃ b, Touched devs base len b ∧ b.1 = a) ∧ Wiped (Touched devs base len) mem mem' := by
  induction fuel generalizing base len d mem with
  | zero => omega
  | succ fuel ih =>
    obtain ⟨member, low, high⟩ := findDev_some found
    have room := d.room_eq low high
    have begins := d.blockBegin_le low
    have countIs := @Dev.count_eq d _ len _ low high begins d.blockBegin_ge
    set count := min (base + len) (d.last + 1) - base with count_def
    have ends : min (base + len) (d.last + 1) = base + count := by omega
    obtain ⟨nodup, exact', wiped⟩ := @Apart.eraseLoop _ _ mem _ count apart member low high (by omega) (by omega) aligned
    rw [cygFlashErase, found]
    dsimp only
    rw [countIs, room, ends]
    by_cases past : len > d.last + 1 - base
    · rw [if_pos past]
      obtain ⟨e, mod, next, starts, covered'⟩ := apart.next found covered past
      have whole : count = d.last + 1 - base := by omega
      have place : d.last + 1 = base + count := by omega
      obtain ⟨seen, mem', run, nodup', exact'', wiped'⟩ := ih next covered' (by omega) (starts ▸ e.aligned_start) (by omega)
      rw [mod, run]
      have split : ∀ b, Touched devs base len b ↔ Touched devs base count b ∨
          Touched devs (d.last + 1) (len - (d.last + 1 - base)) b := fun b => by
        rw [← whole, place]
        exact touched_split (by omega)
      refine ⟨_, _, rfl, ?_, fun a => ?_, (wiped.trans wiped').congr fun b => (split b).symm⟩
      · refine nodup_append'.mpr ⟨nodup, nodup', fun a here there => ?_⟩
        obtain ⟨b, touched, rfl⟩ := (exact' a).mp here
        obtain ⟨c, ⟨e', eThere, block, x, cLow, cHigh, from', to'⟩, same⟩ := (exact'' b.1).mp there
        obtain ⟨block', x', bLow, bHigh, bFrom, bTo⟩ := (apart.touched_within member low (by omega)).mp touched
        have within := d.tiles.within block'
        have within' := e'.tiles.within block
        obtain rfl := @Apart.same _ _ _ b.1 apart member eThere ⟨by omega, by omega⟩ ⟨by omega, by omega⟩
        omega
      · rw [mem_append, exact', exact'']
        constructor
        · rintro (⟨b, touched, is⟩ | ⟨b, touched, is⟩)
          · exact ⟨b, (split b).mpr (.inl touched), is⟩
          · exact ⟨b, (split b).mpr (.inr touched), is⟩
        · rintro ⟨b, touched, is⟩
          rcases (split b).mp touched with first | second
          · exact .inl ⟨b, first, is⟩
          · exact .inr ⟨b, second, is⟩
    · rw [if_neg past]
      have whole : count = len := by omega
      rw [whole] at nodup exact' wiped ⊢
      exact ⟨_, _, rfl, nodup, exact', wiped⟩

theorem touched_empty : ¬Touched devs base 0 b := by
  rintro ⟨_, _, _, a, _, _, from', to'⟩
  omega

theorem erases_empty (found : Flash.findDev devs base = some d) :
    (∀ mem, Erases devs mem base 0) ↔ d.blockBegin base = base := by
  obtain ⟨member, low, high⟩ := findDev_some found
  have room := d.room_eq low high
  have begins := d.blockBegin_le low
  have countIs := @Dev.count_eq d _ 0 _ low high begins d.blockBegin_ge
  have ends : min (base + 0) (d.last + 1) = base := by omega
  have run : ∀ mem, cygFlashErase devs 1 mem base 0 = some (.ok,
      (d.eraseLoop (base - d.blockBegin base) mem (d.blockBegin base) (base - d.blockBegin base)).1,
      (d.eraseLoop (base - d.blockBegin base) mem (d.blockBegin base) (base - d.blockBegin base)).2) := fun mem => by
    rw [cygFlashErase, found]
    dsimp only
    rw [countIs, room, ends, if_neg (by omega)]
  constructor
  · intro erases
    obtain ⟨seen, mem', is, _, exact', _⟩ := erases fun _ => 0
    rw [run] at is
    obtain rfl := (Prod.mk.inj (Prod.mk.inj (Option.some.inj is)).2).1
    by_contra other
    obtain ⟨n, positive⟩ : ∃ n, base - d.blockBegin base = n + 1 := ⟨base - d.blockBegin base - 1, by omega⟩
    rw [positive] at exact'
    obtain ⟨b, touched, _⟩ := (exact' (d.blockBegin base)).mp (by rw [Dev.eraseLoop, if_neg (by omega)]; exact mem_cons_self ..)
    exact touched_empty touched
  · intro same mem
    refine ⟨[], mem, ?_, nodup_nil, fun a => ?_, .refl fun _ => touched_empty⟩
    · rw [run, same, Nat.sub_self]
      rfl
    · exact ⟨fun none => absurd none (by simp), fun ⟨b, touched, _⟩ => absurd touched touched_empty⟩

theorem aligned_of_erases (found : Flash.findDev devs base = some d) (apart : Apart devs) (some : 0 < len)
    (erases : Erases devs mem base len) : d.Aligned base := by
  intro b block bLow bHigh
  obtain ⟨member, low, high⟩ := findDev_some found
  have begins := d.blockBegin_le low
  have countIs := @Dev.count_eq d _ len _ low high begins d.blockBegin_ge
  obtain ⟨seen, mem', run, _, exact', _⟩ := erases
  have first : d.blockBegin base ∈ seen := by
    rw [cygFlashErase, found] at run
    dsimp only at run
    rw [countIs] at run
    obtain ⟨n, positive⟩ : ∃ n, min (base + len) (d.last + 1) - d.blockBegin base = n + 1 :=
      ⟨min (base + len) (d.last + 1) - d.blockBegin base - 1, by omega⟩
    have head : d.blockBegin base ∈ (d.eraseLoop (n + 1) mem (d.blockBegin base) (n + 1)).1 := by
      rw [Dev.eraseLoop, if_neg (by omega)]
      exact mem_cons_self ..
    rw [positive] at run
    split at run
    · obtain ⟨⟨_, rest, _⟩, _, is⟩ := Option.map_eq_some_iff.mp run
      obtain ⟨_, rfl, _⟩ : _ ∧ _ = seen ∧ _ := by simpa using is
      exact mem_append_left _ head
    · obtain rfl := (Prod.mk.inj (Prod.mk.inj (Option.some.inj run)).2).1
      exact head
  obtain ⟨c, ⟨e, there, cBlock, x, cLow, cHigh, from', _⟩, is⟩ := (exact' _).mp first
  have within := e.tiles.within cBlock
  have inside := @Dev.blockBegin_ge base d
  obtain rfl := @Apart.same _ _ _ c.1 apart there member ⟨by omega, by omega⟩ ⟨by omega, by omega⟩
  rw [← is]
  rcases e.tiles.apart block cBlock with rfl | before | after
  · rfl
  · omega
  · omega

/-- Erasing, programming and reading do what they should if and only if, for a range that is not empty, the run of blocks of one
size in which it starts begins at a multiple of that size, and, for an empty range, its address is such a multiple. -/
theorem flash_ranges (apart : Apart devs) (found : Flash.findDev devs base = some d) (covered : Covered devs base len) :
    ((∀ mem, Erases devs mem base len) ∧ (∀ ram, ram.length = len → Programs devs base ram) ∧
      ∀ mem, Reads devs mem base len) ↔
    if len = 0 then (base - d.start) % d.blockSize base = 0
    else regionBegin d.blockInfo (base - d.start) % d.blockSize base = 0 := by
  obtain ⟨member, low, high⟩ := findDev_some found
  obtain ⟨b, block, bLow, bHigh⟩ := d.block_of low high
  have size := d.blockSize_eq block bLow bHigh
  have aligned_iff : d.Aligned base ↔ regionBegin d.blockInfo (base - d.start) % d.blockSize base = 0 := by
    rw [size, ← d.blockBegin_eq_iff block bLow bHigh]
    constructor
    · exact fun aligned => aligned b block bLow bHigh
    · intro same c there cLow cHigh
      rw [same, @Dev.block_unique d base _ _ block there ⟨bLow, bHigh⟩ ⟨cLow, cHigh⟩]
  by_cases nothing : len = 0
  · subst nothing
    rw [if_pos rfl]
    have programs : ∀ ram, ram.length = 0 → Programs devs base ram := fun ram none =>
      program_spec apart found (by rwa [none]) (.inl none) (Nat.lt_succ_self _)
    have reads : ∀ mem, Reads devs mem base 0 := fun mem => read_spec apart found covered (.inl rfl) (Nat.lt_succ_self _)
    have begins : d.blockBegin base = base ↔ (base - d.start) % d.blockSize base = 0 := by
      have split := Nat.div_add_mod' (base - d.start) (d.blockSize base)
      rw [Dev.blockBegin]
      omega
    rw [erases_empty found, begins]
    exact ⟨fun all => all.1, fun aligned => ⟨aligned, programs, reads⟩⟩
  · rw [if_neg nothing, ← aligned_iff]
    constructor
    · exact fun all => aligned_of_erases found apart (by omega) (all.1 fun _ => 0)
    · intro aligned
      refine ⟨fun mem => ?_, fun ram is => ?_, fun mem => ?_⟩
      · exact erase_spec apart found covered (by omega) aligned (Nat.lt_succ_self _)
      · exact program_spec apart found (by rwa [is]) (.inr aligned) (Nat.lt_succ_self _)
      · exact read_spec apart found covered (.inr aligned) (Nat.lt_succ_self _)

/-- A block of two bytes and two blocks of four. -/
def mixed : Dev where
  start := 16
  last := 25
  blockInfo := [(2, 1), (4, 2)]
  indirect := true
  sizes := by decide
  sized := by decide
  proper := by decide
  top := by decide
  part := by decide

/-- Two blocks of four bytes, right behind. -/
def uniform : Dev where
  start := 26
  last := 33
  blockInfo := [(4, 2)]
  indirect := false
  sizes := by decide
  sized := by decide
  proper := by decide
  top := by decide
  part := by decide

/-- The range from the first block of one device to the last of the other. -/
theorem flash_ranges_two : (∀ mem, Erases [mixed, uniform] mem 17 14) ∧
    (∀ ram, ram.length = 14 → Programs [mixed, uniform] 17 ram) ∧ ∀ mem, Reads [mixed, uniform] mem 17 14 := by
  refine (flash_ranges (d := mixed) (List.pairwise_pair.mpr (by decide)) rfl fun a low high => ?_).mpr (by decide)
  by_cases first : a ≤ 25
  · exact ⟨mixed, by simp, by show 16 ≤ a; omega, first⟩
  · exact ⟨uniform, by simp, by show 26 ≤ a; omega, by show a ≤ 33; omega⟩

/-- The block of two bytes in front of the range is erased. -/
theorem erases_before_range : Apart [mixed] ∧ findDev [mixed] 18 = some mixed ∧ Covered [mixed] 18 4 ∧
    ¬∀ mem, Erases [mixed] mem 18 4 := by
  refine ⟨pairwise_singleton .., rfl, fun a low high => ⟨mixed, by simp, by show 16 ≤ a; omega, by show a ≤ 25; omega⟩, ?_⟩
  intro erases
  have aligned := aligned_of_erases (d := mixed) rfl (pairwise_singleton ..) (by decide) (erases fun _ => 0)
  exact absurd (aligned (18, 4) (by decide) (by decide) (by decide)) (by decide)

end Ecos.Flash
