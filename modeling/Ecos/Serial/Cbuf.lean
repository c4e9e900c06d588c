import Ecos.Lib.Circular
import Ecos.Lib.Window

namespace Ecos.Serial
open List Nat Circular

/-- The part of `cbuf_t` that holds the bytes. -/
structure Ring where
  data : Nat → UInt8
  put : Nat
  get : Nat
  len : Nat
  nb : Nat

namespace Ring
variable (r : Ring)

/-- A byte goes in, from a writer or from the line. -/
def push (c : UInt8) : Ring :=
  { r with data := Function.update r.data r.put c, put := if r.put + 1 = r.len then 0 else r.put + 1, nb := r.nb + 1 }

/-- The byte at `get` goes out, to a reader or to the line. -/
def pop : Ring := { r with get := if r.get + 1 = r.len then 0 else r.get + 1, nb := r.nb - 1 }

/-- `get = put = nb = 0`. -/
def clear : Ring := { r with get := 0, put := 0, nb := 0 }

/-- In `serial_data_rcv_req`: an empty buffer begins anew. -/
def rewind : Ring := if r.nb = 0 then { r with get := 0, put := 0 } else r

/-- In `serial_data_rcv_req`: the space up to the unread bytes or to the end of the buffer. -/
def gap : Nat := if r.nb = 0 then r.len else if r.get < r.put then r.len - r.put else r.get - r.put

/-- In `serial_data_xmt_req`: the bytes up to the last one or to the end of the buffer. -/
def chunk : Nat := if r.put ≤ r.get then r.len - r.get else r.put - r.get

/-- `serial_data_rcv_done`, after the driver has written `bytes` into the space. -/
def received (bytes : List UInt8) (count : Nat) : Ring :=
  { r with
    data := overwrite r.data r.put bytes
    put := if r.put + count = r.len then 0 else r.put + count
    nb := r.nb + count }

/-- `serial_data_xmt_done`. -/
def transmitted (count : Nat) : Ring :=
  if r.nb - count = 0 then { r with get := 0, put := 0, nb := 0 }
  else { r with get := if r.get + count = r.len then 0 else r.get + count, nb := r.nb - count }

/-- The bytes in the buffer, the oldest first. -/
def contents : List UInt8 := Circular.contents r.len r.data r.get r.nb

/-- The indices are inside, and `put` is `nb` places behind `get`. -/
structure Sound : Prop where
  fits : r.nb ≤ r.len
  get : r.get < r.len
  put : r.put = (r.get + r.nb) % r.len

variable {r} {c : UInt8} {bytes : List UInt8} {count : Nat}

theorem Sound.some (sound : r.Sound) : 0 < r.len := zero_lt_of_lt sound.get

theorem Sound.put_lt (sound : r.Sound) : r.put < r.len := by
  rw [sound.put]
  exact mod_lt _ sound.some

theorem Sound.put_eq (sound : r.Sound) : r.put = Circular.slot r.len r.get r.nb := by
  have fits := sound.fits
  have get := sound.get
  rw [sound.put, slot]
  split_ifs with wraps
  · rw [mod_eq_sub_mod wraps, mod_eq_of_lt (by omega)]
  · exact mod_eq_of_lt (by omega)

theorem sound_of (some : r.get < r.len) (fits : r.nb ≤ r.len) (put : r.put = Circular.slot r.len r.get r.nb) : r.Sound := by
  refine ⟨fits, some, ?_⟩
  rw [put, slot]
  split_ifs with wraps
  · rw [mod_eq_sub_mod wraps, mod_eq_of_lt (by omega)]
  · exact (mod_eq_of_lt (by omega)).symm

section
variable (sound : r.Sound)
include sound

theorem Sound.push (room : r.nb < r.len) : (r.push c).Sound := by
  have put := sound.put_eq
  have get := sound.get
  refine sound_of get room ?_
  unfold Ring.push slot at *
  split_ifs at * <;> dsimp only at * <;> omega

theorem Sound.contents_push (room : r.nb < r.len) : (r.push c).contents = r.contents ++ [c] := by
  have put := sound.put_eq
  unfold Ring.contents Ring.push
  rw [put]
  exact Circular.contents_push room c

theorem Sound.pop (filled : 0 < r.nb) : r.pop.Sound := by
  have put := sound.put_eq
  have get := sound.get
  have fits := sound.fits
  refine sound_of ?_ ?_ ?_
  all_goals
    unfold Ring.pop Circular.slot at *
    split_ifs at * <;> dsimp only at * <;> omega

theorem Sound.contents_pop (filled : 0 < r.nb) : r.contents = r.data r.get :: r.pop.contents := by
  have get := sound.get
  have next : (if r.len ≤ r.get + 1 then 0 else r.get + 1) = if r.get + 1 = r.len then 0 else r.get + 1 := by
    split_ifs <;> omega
  rw [Ring.contents, Circular.contents_pop get filled sound.fits, next]
  rfl

theorem Sound.clear : r.clear.Sound := ⟨zero_le _, sound.some, rfl⟩

theorem Sound.rewind : r.rewind.Sound := by
  unfold Ring.rewind
  split_ifs with empty
  · exact ⟨sound.fits, sound.some, by simp [empty]⟩
  · exact sound

end

theorem contents_rewind : r.rewind.contents = r.contents := by
  unfold Ring.rewind
  split_ifs with empty
  · simp [Ring.contents, empty]
  · rfl

/-- Space that may be written: `n` bytes from `put` on, inside the buffer and clear of the unread bytes. -/
structure Space (r : Ring) (n : Nat) : Prop where
  inside : r.put + n ≤ r.len
  free : r.nb + n ≤ r.len

/-- Bytes that may be sent: `n` bytes from `get` on, inside the buffer and unsent. -/
structure Chunk (r : Ring) (n : Nat) : Prop where
  inside : r.get + n ≤ r.len
  unsent : n ≤ r.nb

theorem Sound.space_gap (sound : r.Sound) (room : r.nb < r.len) : r.rewind.Space r.gap := by
  have put := sound.put_eq
  have get := sound.get
  by_cases empty : r.nb = 0
  · rw [Ring.rewind, Ring.gap, if_pos empty, if_pos empty]
    exact ⟨by dsimp only; omega, by dsimp only; omega⟩
  · rw [Ring.rewind, Ring.gap, if_neg empty, if_neg empty]
    unfold slot at put
    split_ifs at put ⊢ <;> exact ⟨by omega, by omega⟩

theorem Sound.chunk_chunk (sound : r.Sound) (filled : 0 < r.nb) : r.Chunk r.chunk := by
  have put := sound.put_eq
  have get := sound.get
  have fits := sound.fits
  unfold Ring.chunk slot at *
  split_ifs at * <;> refine ⟨?_, ?_⟩ <;> omega

theorem Space.le {m n : Nat} (space : r.Space n) (le : m ≤ n) : r.Space m :=
  ⟨by have inside := space.inside; omega, by have free := space.free; omega⟩

theorem Chunk.le {m n : Nat} (chunk : r.Chunk n) (le : m ≤ n) : r.Chunk m :=
  ⟨by have inside := chunk.inside; omega, by have unsent := chunk.unsent; omega⟩

theorem Space.clear_of_unread {n i : Nat} (space : r.Space n) (sound : r.Sound) (unread : i < r.nb) :
    ¬ (r.put ≤ Circular.slot r.len r.get i ∧ Circular.slot r.len r.get i < r.put + n) := by
  have put := sound.put_eq
  obtain ⟨inside, free⟩ := space
  unfold slot at *
  split_ifs at * <;> omega

theorem Sound.received {n : Nat} (sound : r.Sound) (space : r.Space n) (within : count ≤ n) :
    (r.received bytes count).Sound := by
  have put := sound.put_eq
  have get := sound.get
  obtain ⟨inside, free⟩ := space
  refine sound_of get (by unfold Ring.received; dsimp only; omega) ?_
  unfold Ring.received slot at *
  split_ifs at * <;> dsimp only at * <;> omega

theorem Sound.contents_received {n : Nat} (sound : r.Sound) (space : r.Space n) (within : bytes.length ≤ n)
    (stored : count ≤ bytes.length) : (r.received bytes count).contents = r.contents ++ bytes.take count := by
  have put := sound.put_eq
  have behind : ∀ j, j < count → slot r.len r.get (r.nb + j) = r.put + j := by
    intro j inside
    obtain ⟨bound, free⟩ := space
    unfold slot at *
    split_ifs at * <;> omega
  have old : Circular.contents r.len (overwrite r.data r.put bytes) r.get r.nb = r.contents := by
    refine map_congr_left fun i mem => ?_
    have clear := (space.le within).clear_of_unread sound (mem_range.mp mem)
    rcases lt_or_ge (slot r.len r.get i) r.put with before | after
    · exact overwrite_of_lt before
    · exact overwrite_of_ge (by omega)
  have new : ((List.range count).map fun j => overwrite r.data r.put bytes (slot r.len r.get (r.nb + j))) =
      bytes.take count := by
    refine ext_getElem (by simp; omega) fun j inside inside' => ?_
    have less : j < count := by simpa using inside
    rw [getElem_map, getElem_range, behind j less, overwrite_inside (g := r.data) (by omega) (by omega),
      Nat.add_sub_cancel_left, getElem_take, getD_eq_getElem _ _ (by omega)]
  change Circular.contents r.len (overwrite r.data r.put bytes) r.get (r.nb + count) = _
  rw [contents_add, old, new]

theorem Sound.transmitted {n : Nat} (sound : r.Sound) (chunk : r.Chunk n) (within : count ≤ n) :
    (r.transmitted count).Sound := by
  have put := sound.put_eq
  have get := sound.get
  have fits := sound.fits
  obtain ⟨inside, unsent⟩ := chunk
  by_cases empty : r.nb - count = 0
  · rw [Ring.transmitted, if_pos empty]
    exact sound.clear
  · rw [Ring.transmitted, if_neg empty]
    refine sound_of ?_ (by dsimp only; omega) ?_
    · dsimp only
      split_ifs <;> omega
    · unfold slot at *
      dsimp only
      split_ifs at * <;> omega

theorem Sound.contents_transmitted {n : Nat} (sound : r.Sound) (chunk : r.Chunk n) (within : count ≤ n) :
    r.contents = window r.data r.get count ++ (r.transmitted count).contents := by
  obtain ⟨inside, unsent⟩ := chunk
  have fits := sound.fits
  have parts : r.nb = count + (r.nb - count) := by omega
  have sent : Circular.contents r.len r.data r.get count = window r.data r.get count := by
    rw [Circular.contents, window, range'_eq_map_range, map_map]
    refine map_congr_left fun i mem => ?_
    have less := mem_range.mp mem
    simp only [Function.comp_apply, slot, if_neg (by omega : ¬ r.len ≤ r.get + i)]
  have rest : ((List.range (r.nb - count)).map fun i => r.data (slot r.len r.get (count + i))) =
      (r.transmitted count).contents := by
    by_cases empty : r.nb - count = 0
    · rw [Ring.transmitted, if_pos empty, empty]
      rfl
    · rw [Ring.transmitted, if_neg empty]
      refine map_congr_left fun i mem => ?_
      have less := mem_range.mp mem
      have place : slot r.len r.get (count + i) =
          slot r.len (if r.get + count = r.len then 0 else r.get + count) i := by
        unfold slot
        split_ifs <;> omega
      exact congrArg r.data place
  rw [Ring.contents, parts, contents_add, sent, rest]

end Ring

end Ecos.Serial
