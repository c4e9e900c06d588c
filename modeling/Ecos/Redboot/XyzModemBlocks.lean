import Mathlib.Tactic.Cases
import Mathlib.Data.List.DropRight
import Ecos.Redboot.XyzModem

namespace Ecos.Redboot.Xyz
open List Option Nat
variable {crc16 : List UInt8 → Nat} {parse : List UInt8 → Option Nat} {s s' t : Xyz} {line rest : Line} {stat : Stat}

/-- All that the reception of a packet leaves alone. -/
structure Frame (s t : Xyz) : Prop where
  nextBlk : t.nextBlk = s.nextBlk
  ymodem : t.ymodem = s.ymodem
  atEof : t.atEof = s.atEof
  fileLength : t.fileLength = s.fileLength
  readLength : t.readLength = s.readLength
  blocks : t.blocks = s.blocks
  out : t.out = s.out
  copies : t.copies = s.copies

namespace Frame

theorem rfl' : Frame s s := ⟨rfl, rfl, rfl, rfl, rfl, rfl, rfl, rfl⟩

theorem trans {u : Xyz} (first : Frame s t) (second : Frame t u) : Frame s u where
  nextBlk := second.nextBlk.trans first.nextBlk
  ymodem := second.ymodem.trans first.ymodem
  atEof := second.atEof.trans first.atEof
  fileLength := second.fileLength.trans first.fileLength
  readLength := second.readLength.trans first.readLength
  blocks := second.blocks.trans first.blocks
  out := second.out.trans first.out
  copies := second.copies.trans first.copies

theorem put (c : UInt8) : Frame s (s.put c) := ⟨rfl, rfl, rfl, rfl, rfl, rfl, rfl, rfl⟩

theorem nak : Frame s s.nak := put _

theorem known (frame : Frame s t) : t.Known ↔ s.Known := by
  rw [Known, Known, frame.ymodem, frame.fileLength]

end Frame

/-- A packet as it stands in the buffer. -/
def Whole (s : Xyz) : Prop := s.bufp = 0 ∧ (s.len = 128 ∨ s.len = 1024)

theorem validate_frame (run : s.validate crc16 line = some (stat, t, rest)) : t = s := by
  rw [validate] at run
  split at run
  · obtain ⟨_, _, same⟩ := map_eq_some_iff.mp run
    exact (Prod.mk.inj (Prod.mk.inj same).2).1.symm
  · split at run
    all_goals
      exact (Prod.mk.inj (Prod.mk.inj (some.inj run)).2).1.symm

theorem getPacket_frame {size : Nat} (sizes : size = 128 ∨ size = 1024)
    (run : s.getPacket crc16 size line = some (stat, t, rest)) : Frame s t ∧ (stat = .ok → t.Whole) := by
  rw [getPacket] at run
  obtain ⟨⟨num, whole, line1⟩, _, run⟩ := bind_eq_some_iff.mp run
  dsimp only at run
  split at run
  · obtain ⟨rfl, rfl, _⟩ : _ = stat ∧ _ = t ∧ _ := by simpa using run
    exact ⟨⟨rfl, rfl, rfl, rfl, rfl, rfl, rfl, rfl⟩, by simp⟩
  obtain ⟨⟨bytes, whole', line2⟩, _, run⟩ := bind_eq_some_iff.mp run
  split at run
  · obtain ⟨rfl, rfl, _⟩ : _ = stat ∧ _ = t ∧ _ := by simpa using run
    exact ⟨⟨rfl, rfl, rfl, rfl, rfl, rfl, rfl, rfl⟩, by simp⟩
  obtain ⟨⟨crc, whole'', line3⟩, _, run⟩ := bind_eq_some_iff.mp run
  split at run
  · obtain ⟨rfl, rfl, _⟩ : _ = stat ∧ _ = t ∧ _ := by simpa using run
    exact ⟨⟨rfl, rfl, rfl, rfl, rfl, rfl, rfl, rfl⟩, by simp⟩
  obtain rfl := validate_frame run
  refine ⟨⟨rfl, rfl, rfl, rfl, rfl, rfl, rfl, rfl⟩, fun _ => ⟨rfl, ?_⟩⟩
  rcases sizes with rfl | rfl
  · exact .inl rfl
  · exact .inr rfl

theorem findHdr_size {canTotal hdrChars size : Nat} (run : findHdr canTotal hdrChars line = some (.packet size, rest)) :
    size = 128 ∨ size = 1024 := by
  fun_induction findHdr canTotal hdrChars line with
  | case1 => simp at run
  | case2 => simp at run
  | case3 =>
    simp at run
    exact .inl run.1.symm
  | case4 =>
    simp at run
    exact .inr run.1.symm
  | case5 => simp at run
  | case6 => next ih => exact ih run
  | case7 => simp at run
  | case8 => next ih => exact ih run

theorem getHdr_frame (run : s.getHdr crc16 line = some (stat, t, rest)) : Frame s t ∧ (stat = .ok → t.Whole) := by
  rw [getHdr] at run
  have acked : Frame s (if s.txAck = true then { s.put ackChar with txAck := false } else s) := by
    split
    · exact ⟨rfl, rfl, rfl, rfl, rfl, rfl, rfl, rfl⟩
    · exact .rfl'
  revert run acked
  generalize (if s.txAck = true then { s.put ackChar with txAck := false } else s) = u
  intro run acked
  obtain ⟨⟨start, line'⟩, found, run⟩ := bind_eq_some_iff.mp run
  cases start with
  | timeout =>
    obtain ⟨_, _, same⟩ := map_eq_some_iff.mp run
    obtain ⟨rfl, rfl, _⟩ : _ = stat ∧ u = t ∧ _ := by simpa using same
    exact ⟨acked, by simp⟩
  | cancel =>
    obtain ⟨rfl, rfl, _⟩ : _ = stat ∧ u = t ∧ _ := by simpa using run
    exact ⟨acked, by simp⟩
  | eof =>
    obtain ⟨rfl, rfl, _⟩ : _ = stat ∧ _ = t ∧ _ := by simpa using run
    exact ⟨acked.trans (.put _), by simp⟩
  | packet size =>
    obtain ⟨frame, whole⟩ := getPacket_frame (findHdr_size found) run
    exact ⟨acked.trans frame, whole⟩

/-- Three characters `^Z` at the end of a block are padding, and so is what stands before them. -/
def trim (bytes : List UInt8) : List UInt8 :=
  if List.replicate 3 eofChar <:+ bytes then bytes.rdropWhile (· = eofChar) else bytes

/-- What the callers should get. -/
def expected (s : Xyz) : List UInt8 :=
  if s.Known then (s.blocks.flatMap (·.2)).take s.fileLength else s.blocks.flatMap fun b => trim b.2

theorem expected_of_known (known : s.Known) : s.expected = (s.blocks.flatMap (·.2)).take s.fileLength := if_pos known

theorem expected_of_not (known : ¬s.Known) : s.expected = s.blocks.flatMap fun b => trim b.2 := if_neg known

/-- What has been accepted but not yet copied. -/
def pending (s : Xyz) : List UInt8 := if s.atEof then [] else window s.pkt s.bufp s.len.toNat

theorem window_succ {f : Nat → UInt8} {n : Nat} : window f 0 (n + 1) = window f 0 n ++ [f n] := by
  rw [window_append, Nat.zero_add]
  rfl

theorem window_unpadded (f : Nat → UInt8) (n : Nat) :
    window f 0 (unpadded f n) = (window f 0 n).rdropWhile (· = eofChar) := by
  induction n with
  | zero => rfl
  | succ n ih =>
    rw [unpadded, window_succ, rdropWhile_concat]
    by_cases padding : f n = eofChar
    · rw [if_pos padding, ih, if_pos (by simpa using padding)]
    · rw [if_neg padding, if_neg (by simpa using padding), window_succ]

theorem unpadded_le (f : Nat → UInt8) (n : Nat) : unpadded f n ≤ n := by
  induction n with
  | zero => exact le_rfl
  | succ n ih =>
    rw [unpadded]
    split
    · omega
    · exact le_rfl

theorem padded_iff {f : Nat → UInt8} {n : Nat} : List.replicate 3 eofChar <:+ window f 0 (n + 3) ↔
    f (n + 2) = eofChar ∧ f (n + 1) = eofChar ∧ f n = eofChar := by
  have three : window f 0 (n + 3) = window f 0 n ++ [f n, f (n + 1), f (n + 2)] := by
    rw [window_succ, window_succ, window_succ, append_assoc, append_assoc]
    rfl
  rw [three, suffix_iff_eq_drop]
  simp [replicate]
  tauto

/-- What is known of the accepted blocks and the copies made. -/
structure Book (s : Xyz) : Prop where
  next : s.nextBlk = UInt8.ofNat (s.blocks.length + 1)
  numbered : ∀ i b, s.blocks[i]? = some b → b.1 = UInt8.ofNat (i + 1)
  counted : s.Known → s.readLength = (s.blocks.flatMap (·.2)).length
  copied : ∀ c ∈ s.copies, 0 ≤ c.2 ∧ c.2 ≤ 1024 ∧ c.1 + c.2 ≤ 1024

theorem Frame.expected (frame : Frame s t) : t.expected = s.expected := by
  rw [Xyz.expected, Xyz.expected, if_congr frame.known rfl rfl, frame.blocks, frame.fileLength]

theorem Book.frame (book : s.Book) (frame : Frame s t) : t.Book := by
  obtain ⟨next, numbered, counted, copied⟩ := book
  refine ⟨?_, ?_, fun known => ?_, ?_⟩
  · rw [frame.nextBlk, frame.blocks, next]
  · rwa [frame.blocks]
  · rw [frame.readLength, frame.blocks]
    exact counted (frame.known.mp known)
  · rwa [frame.copies]

/-- Everything that was accepted has been copied. -/
structure Settled (s : Xyz) : Prop where
  book : s.Book
  bytes : s.out = s.expected

theorem Settled.frame (settled : s.Settled) (frame : Frame s t) : t.Settled where
  book := settled.book.frame frame
  bytes := by rw [frame.out, frame.expected, settled.bytes]

/-- There is a block to be copied from. -/
structure Loaded (s : Xyz) : Prop where
  book : s.Book
  bytes : s.out ++ window s.pkt s.bufp s.len.toNat = s.expected
  low : 0 ≤ s.len
  high : s.bufp + s.len ≤ 1024

/-- No more than the announced length has been received before this block, and the counter does not wrap. -/
def Fits (s : Xyz) : Prop := s.Known → s.readLength ≤ s.fileLength ∧ s.readLength + s.len.toNat < 2 ^ 32

theorem Book.accepted {b : List UInt8} (book : s.Book) (expectedBlk : s.blk = s.nextBlk) (ackNext : Bool) (len : Int)
    (readLength : Nat) (counted : s.Known → readLength = s.readLength + b.length) :
    Book { s with
      txAck := ackNext, nextBlk := s.nextBlk + 1, blocks := s.blocks ++ [(s.blk, b)], len := len, readLength := readLength } := by
  obtain ⟨next, numbered, count, copied⟩ := book
  refine ⟨?_, fun i c here => ?_, fun known => ?_, copied⟩
  · dsimp only
    rw [next, length_append, length_singleton, UInt8.ofNat_add (s.blocks.length + 1)]
    rfl
  · dsimp only at here
    rcases lt_trichotomy i s.blocks.length with before | rfl | behind
    · rw [getElem?_append_left before] at here
      exact numbered i c here
    · rw [getElem?_append_right le_rfl, Nat.sub_self] at here
      obtain rfl := some.inj here
      exact expectedBlk.trans next
    · rw [getElem?_eq_none (by rw [length_append, length_singleton]; omega)] at here
      simp at here
  · dsimp only
    rw [counted known, count known, flatMap_append, length_append]
    simp

theorem trim_window {f : Nat → UInt8} {n : Nat} (big : 3 ≤ n) : trim (window f 0 n) =
    if f (n - 1) = eofChar ∧ f (n - 2) = eofChar ∧ f (n - 3) = eofChar then window f 0 (unpadded f n) else window f 0 n := by
  obtain ⟨m, rfl⟩ := Nat.exists_eq_add_of_le' big
  rw [trim, window_unpadded]
  exact if_congr padded_iff rfl rfl

theorem Settled.unpad (settled : s.Settled) (whole : s.Whole) (expectedBlk : s.blk = s.nextBlk) (known : ¬s.Known)
    (ackNext : Bool) : Loaded (unpad { s with
      txAck := ackNext, nextBlk := s.nextBlk + 1, blocks := s.blocks ++ [(s.blk, window s.pkt s.bufp s.len.toNat)] }) := by
  obtain ⟨start, size⟩ := whole
  have big : 3 ≤ s.len.toNat := by omega
  have bytes := settled.bytes
  rw [expected_of_not known] at bytes
  have trimmed : trim (window s.pkt s.bufp s.len.toNat) =
      if s.pkt (s.bufp + (s.len.toNat - 1)) = eofChar ∧ s.pkt (s.bufp + (s.len.toNat - 2)) = eofChar ∧
        s.pkt (s.bufp + (s.len.toNat - 3)) = eofChar
      then window s.pkt s.bufp (unpadded (fun i => s.pkt (s.bufp + i)) s.len.toNat)
      else window s.pkt s.bufp s.len.toNat := by
    simpa only [window_shift, Nat.add_zero] using trim_window (f := fun i => s.pkt (s.bufp + i)) big
  have whole : (s.blocks ++ [(s.blk, window s.pkt s.bufp s.len.toNat)]).flatMap (fun b => trim b.2) =
      s.out ++ trim (window s.pkt s.bufp s.len.toNat) := by
    rw [flatMap_append, bytes]
    simp
  rw [Xyz.unpad]
  split
  · next padded =>
    rw [if_pos padded] at trimmed
    have less := unpadded_le (fun i => s.pkt (s.bufp + i)) s.len.toNat
    refine ⟨settled.book.accepted expectedBlk _ _ _ fun k => absurd k known, ?_, by simp, ?_⟩
    · rw [expected_of_not]
      · exact (whole.trans (congrArg (s.out ++ ·) trimmed)).symm
      · exact known
    · dsimp only
      omega
  · next not =>
    rw [if_neg not] at trimmed
    refine ⟨settled.book.accepted expectedBlk _ _ _ fun k => absurd k known, ?_, ?_, ?_⟩
    · rw [expected_of_not]
      · exact (whole.trans (congrArg (s.out ++ ·) trimmed)).symm
      · exact known
    · dsimp only
      omega
    · dsimp only
      omega

theorem Settled.cut (settled : s.Settled) (whole : s.Whole) (expectedBlk : s.blk = s.nextBlk) (known : s.Known)
    (fits : s.Fits) (ackNext : Bool) : Loaded (cut { s with
      txAck := ackNext, nextBlk := s.nextBlk + 1, blocks := s.blocks ++ [(s.blk, window s.pkt s.bufp s.len.toNat)] }) := by
  obtain ⟨start, size⟩ := whole
  obtain ⟨within, small⟩ := fits known
  have count := settled.book.counted known
  have bytes := settled.bytes
  rw [expected_of_known known, take_of_length_le (by omega)] at bytes
  have whole : ((s.blocks ++ [(s.blk, window s.pkt s.bufp s.len.toNat)]).flatMap (·.2)).take s.fileLength =
      s.out ++ window s.pkt s.bufp (min s.len.toNat (s.fileLength - s.readLength)) := by
    rw [← bytes] at count
    rw [flatMap_append, take_append, ← bytes, ← window_take, count, take_of_length_le (by omega)]
    simp
  have least : (if (s.readLength + s.len.toNat) % 2 ^ 32 > s.fileLength
      then (s.len - ((s.readLength + s.len.toNat) % 2 ^ 32 - s.fileLength : Nat)).bmod (2 ^ 32) else s.len) =
      (min s.len.toNat (s.fileLength - s.readLength) : Nat) := by
    rw [mod_eq_of_lt small]
    split
    · rw [Int.bmod_eq_of_le (by omega) (by omega)]
      omega
    · omega
  have loaded := settled.book.accepted (b := window s.pkt s.bufp s.len.toNat) expectedBlk ackNext
    (min s.len.toNat (s.fileLength - s.readLength) : Nat) ((s.readLength + s.len.toNat) % 2 ^ 32)
    fun _ => by rw [mod_eq_of_lt small, window_length]
  rw [Xyz.cut]
  rw [least]
  refine ⟨loaded, ?_, by simp, ?_⟩
  · rw [expected_of_known]
    · exact whole.symm
    · exact known
  · dsimp only
    omega

theorem Settled.accept (settled : s.Settled) (whole : s.Whole) (expectedBlk : s.blk = s.nextBlk) (fits : s.Fits) :
    s.accept.Loaded := by
  rw [Xyz.accept]
  split
  · next known => exact settled.cut whole expectedBlk known fits true
  · next known => exact settled.unpad whole expectedBlk known true

theorem accept_frame : s.accept.atEof = s.atEof ∧ s.accept.out = s.out := by
  rw [accept]
  split
  · exact ⟨rfl, rfl⟩
  · rw [unpad]
    split <;> exact ⟨rfl, rfl⟩

end Ecos.Redboot.Xyz
