import Ecos.Lib.Machine
import Ecos.Lib.Window

namespace Ecos.Ramfs
variable {σ ρ H : Type}

/-- What `findbuffer_node` hands out: no space, or a buffer, which a hole does not
have, with the bytes from the position on that lie in one piece. -/
inductive Found (ρ : Type)
  | noSpace
  | buffer (at? : Option ρ) (size : Nat)
  deriving DecidableEq, Repr

/-- How the data of a node is stored. A result of `none` is an access outside the
memory that was obtained. -/
structure Storage (σ ρ : Type) where
  findbuffer : σ → Nat → Bool → Option (σ × Found ρ)
  load : σ → ρ → Nat → Option (List UInt8)
  store : σ → ρ → List UInt8 → Option σ

/-- `ramfs_node`, as far as the data of a file goes. -/
structure Node (σ : Type) where
  size : Nat
  data : σ

/-- An open file: `f_offset`, and whether `f_flag` has `CYG_FAPPEND`. -/
structure Handle where
  offset : Nat
  append : Bool
  deriving DecidableEq, Repr

inductive Whence
  | set | cur | end | other
  deriving DecidableEq, Repr

namespace Storage
variable (S : Storage σ ρ)

/-- What is copied out of a buffer; a hole reads as zeros. -/
def copyOut (s : σ) (l : Nat) : Option ρ → Option (List UInt8)
  | some fbuf => S.load s fbuf l
  | none => some (List.replicate l 0)

/-- The loop of `ramfs_fo_read` that fills one vector of `len` bytes. A round that
moves nothing would be repeated for ever, so a round for each byte is enough. -/
def readVector (size : Nat) : Nat → σ → Nat → Nat → Option (σ × Except Unit (List UInt8 × Nat))
  | _, s, pos, 0 => some (s, .ok ([], pos))
  | 0, s, pos, _ + 1 => if pos < size then none else some (s, .ok ([], pos))
  | n + 1, s, pos, len =>
    if pos < size then
      match S.findbuffer s pos false with
      | none => none
      | some (s, .noSpace) => some (s, .error ())
      | some (s, .buffer fbuf bsize) =>
        let l := min (min len (size - pos)) bsize
        (S.copyOut s l fbuf).bind fun bytes =>
          (readVector size n s (pos + l) (len - l)).map
            fun (s, rest) => (s, rest.map fun (more, pos) => (bytes ++ more, pos))
    else some (s, .ok ([], pos))

/-- The loop over the vectors. -/
def readVectors (size : Nat) : σ → Nat → List Nat → Option (σ × Except Unit (List (List UInt8) × Nat))
  | s, pos, [] => some (s, .ok ([], pos))
  | s, pos, len :: lens =>
    match S.readVector size len s pos len with
    | none => none
    | some (s, .error _) => some (s, .error ())
    | some (s, .ok (bytes, pos)) =>
      (readVectors size s pos lens).map fun (s, rest) => (s, rest.map fun (more, pos) => (bytes :: more, pos))

/-- `ramfs_fo_read`: what each vector is filled with. The only error is that of `findbuffer_node`. -/
def foRead (node : Node σ) (fp : Handle) (lens : List Nat) :
    Option (Node σ × Handle × Except Unit (List (List UInt8))) :=
  (S.readVectors node.size node.data fp.offset lens).map fun (data, result) =>
    match result with
    | .error _ => ({ node with data }, fp, .error ())
    | .ok (bytes, pos) => ({ node with data }, { fp with offset := pos }, .ok bytes)

/-- The loop of `ramfs_fo_write` over one vector; the flag is that `err` is `ENOSPC`. -/
def writeVector : Nat → σ → Nat → List UInt8 → Bool → Option (σ × Nat × Bool)
  | _, s, pos, [], full => some (s, pos, full)
  | 0, _, _, _ :: _, _ => none
  | n + 1, s, pos, buf, _ =>
    match S.findbuffer s pos true with
    | none => none
    | some (s, .noSpace) => some (s, pos, true)
    | some (_, .buffer none _) => none
    | some (s, .buffer (some fbuf) bsize) =>
      let l := min buf.length bsize
      (S.store s fbuf (buf.take l)).bind fun s => writeVector n s (pos + l) (buf.drop l) false

def writeVectors : σ → Nat → List (List UInt8) → Bool → Option (σ × Nat × Bool)
  | s, pos, [], full => some (s, pos, full)
  | s, pos, buf :: bufs, full =>
    (S.writeVector buf.length s pos buf full).bind fun (s, pos, full) => writeVectors s pos bufs full

/-- Where a write begins. -/
def startOf (node : Node σ) (fp : Handle) : Nat := if fp.append then node.size else fp.offset

/-- `ramfs_fo_write`: the node, the file and whether it returns `ENOSPC`. As many bytes
have been taken from `uio_resid` as the offset has moved from where the write began. -/
def foWrite (node : Node σ) (fp : Handle) (bufs : List (List UInt8)) : Option (Node σ × Handle × Bool) :=
  (S.writeVectors node.data (startOf node fp) bufs false).map fun (data, pos, full) =>
    ({ size := max node.size pos, data }, { fp with offset := pos }, full)

end Storage

/-- `ramfs_fo_lseek`: the new position; `none` is `EINVAL`. -/
def foLseek (node : Node σ) (fp : Handle) (pos : Int) : Whence → Option Int
  | .set => some pos
  | .cur => some (pos + fp.offset)
  | .end => some (pos + node.size)
  | .other => none

/-- A file with its open handles, and the bytes last written at each position. -/
structure File (σ H : Type) where
  node : Node σ
  fp : H → Handle
  log : Nat → Option UInt8

inductive FileEvent (H : Type)
  | lseek (fp : H) (pos : Int) (whence : Whence)
  | write (fp : H) (bufs : List (List UInt8))
  | read (fp : H) (lens : List Nat)

namespace File
variable [DecidableEq H]

def step (S : Storage σ ρ) (s : File σ H) : FileEvent H → File σ H
  | .lseek h pos whence =>
    match foLseek s.node (s.fp h) pos whence with
    | none => s
    | some pos => { s with fp := Function.update s.fp h { s.fp h with offset := pos.toNat } }
  | .write h bufs =>
    match S.foWrite s.node (s.fp h) bufs with
    | none => s
    | some (node, fp, _) =>
      let start := Storage.startOf s.node (s.fp h)
      { node
        fp := Function.update s.fp h fp
        log := overwrite s.log start ((bufs.flatten.take (fp.offset - start)).map some) }
  | .read h lens =>
    match S.foRead s.node (s.fp h) lens with
    | none => s
    | some (node, fp, _) => { s with node, fp := Function.update s.fp h fp }

/-- Only positions that are not negative are sought. -/
def Enabled (s : File σ H) : FileEvent H → Prop
  | .lseek h pos whence => ∀ p ∈ foLseek s.node (s.fp h) pos whence, 0 ≤ p
  | _ => True

/-- A new file, whose events must meet a further condition. -/
def machine (S : Storage σ ρ) (empty : σ) (Only : File σ H → FileEvent H → Prop) : Machine (File σ H) :=
  .guided (fun s => ∃ append : H → Bool, s = ⟨⟨0, empty⟩, fun h => ⟨0, append h⟩, fun _ => none⟩)
    (fun s e => s.Enabled e ∧ Only s e) (step S)

/-- The contents that the writes so far have given the file. -/
def byte (s : File σ H) (pos : Nat) : UInt8 := (s.log pos).getD 0

end File

end Ecos.Ramfs

namespace Ecos.Ramfs.Storage
open List Option Nat Storage
variable {σ ρ : Type} {S : Storage σ ρ} {s : σ} {f : Nat → UInt8} {size pos len n : Nat} {full : Bool}

/-- A read at this position finds the contents, at least one byte of them. -/
def Readable (S : Storage σ ρ) (s : σ) (f : Nat → UInt8) (size pos : Nat) : Prop :=
  ∃ fbuf bsize, S.findbuffer s pos false = some (s, .buffer fbuf bsize) ∧ 0 < bsize ∧
    ∀ l ≤ bsize, pos + l ≤ size → S.copyOut s l fbuf = some (window f pos l)

theorem readVector_eq (enough : len ≤ n) (readable : ∀ p, pos ≤ p → p < pos + len → p < size → S.Readable s f size p) :
    S.readVector size n s pos len =
      some (s, .ok (window f pos (min len (size - pos)), pos + min len (size - pos))) := by
  induction n generalizing pos len with
  | zero =>
    obtain rfl : len = 0 := by omega
    simp [readVector]
  | succ n ih =>
    by_cases none : len = 0
    · subst none
      simp [readVector]
    · obtain ⟨len, rfl⟩ : ∃ k, len = k + 1 := ⟨len - 1, by omega⟩
      by_cases inside : pos < size
      · obtain ⟨fbuf, bsize, found, positive, bytes⟩ := readable pos le_rfl (by omega) inside
        set l := min (min (len + 1) (size - pos)) bsize with hl
        have copied := bytes l (by omega) (by omega)
        have later := @ih (pos + l) (len + 1 - l) (by omega)
          fun p low high below => readable p (by omega) (by omega) below
        have total : l + min (len + 1 - l) (size - (pos + l)) = min (len + 1) (size - pos) := by omega
        simp only [readVector, if_pos inside, found, ← hl, copied, bind_some, later, map_some, Except.map]
        rw [← total, window_append, Nat.add_assoc]
      · have past : size - pos = 0 := by omega
        simp [readVector, inside, past]

/-- What the vectors of a read are filled with. -/
def scatter (f : Nat → UInt8) (size : Nat) : Nat → List Nat → List (List UInt8)
  | _, [] => []
  | pos, len :: lens => window f pos (min len (size - pos)) :: scatter f size (pos + min len (size - pos)) lens

theorem readVectors_eq (lens : List Nat)
    (readable : ∀ p, pos ≤ p → p < pos + lens.sum → p < size → S.Readable s f size p) :
    S.readVectors size s pos lens =
      some (s, .ok (scatter f size pos lens, pos + min lens.sum (size - pos))) := by
  induction lens generalizing pos with
  | nil => simp [readVectors, scatter]
  | cons len lens ih =>
    rw [sum_cons] at readable
    have first := readVector_eq (n := len) le_rfl fun p low high below => readable p low (by omega) below
    have rest := @ih (pos + min len (size - pos)) fun p low high below => readable p (by omega) (by omega) below
    have total : min len (size - pos) + min lens.sum (size - (pos + min len (size - pos))) =
        min (len + lens.sum) (size - pos) := by omega
    simp only [readVectors, first, rest, map_some, Except.map, scatter, sum_cons]
    rw [← total, Nat.add_assoc]

theorem foRead_eq {node : Node σ} {fp : Handle} (lens : List Nat)
    (readable : ∀ p, fp.offset ≤ p → p < fp.offset + lens.sum → p < node.size → S.Readable node.data f node.size p) :
    S.foRead node fp lens = some (node, { fp with offset := fp.offset + min lens.sum (node.size - fp.offset) },
      .ok (scatter f node.size fp.offset lens)) := by
  simp [foRead, readVectors_eq lens readable]

/-- There is no space at this position, and that is how it stays. -/
def Full (S : Storage σ ρ) (s : σ) (pos : Nat) : Prop := S.findbuffer s pos true = some (s, .noSpace)

/-- How a storage represents contents, at which positions it has memory, and where it may be written. -/
structure Layout (σ : Type) where
  Holds : σ → (Nat → UInt8) → Prop
  Stored : σ → Nat → Prop
  Ok : σ → Nat → Prop

/-- The positions that were stored or could be written still are and can. -/
structure Layout.Grows (L : Layout σ) (s s' : σ) : Prop where
  stored : ∀ i, L.Stored s i → L.Stored s' i
  ok : ∀ q, L.Ok s q → L.Ok s' q

theorem Layout.Grows.refl {L : Layout σ} : L.Grows s s := ⟨fun _ same => same, fun _ same => same⟩

theorem Layout.Grows.trans {L : Layout σ} {s' s'' : σ} (first : L.Grows s s') (second : L.Grows s' s'') : L.Grows s s'' :=
  ⟨fun i here => second.stored i (first.stored i here), fun q ok => second.ok q (first.ok q ok)⟩

/-- Writes keep the representation. -/
structure Writes (S : Storage σ ρ) (L : Layout σ) : Prop where
  find : ∀ {s f pos}, L.Holds s f → L.Ok s pos → ∃ s', L.Holds s' f ∧ L.Grows s s' ∧
    ((S.findbuffer s pos true = some (s', .noSpace) ∧ S.Full s' pos) ∨
      ∃ fbuf bsize, S.findbuffer s pos true = some (s', .buffer (some fbuf) bsize) ∧ 0 < bsize ∧
        ∀ l : List UInt8, l.length ≤ bsize → ∃ s'', S.store s' fbuf l = some s'' ∧ L.Holds s'' (overwrite f pos l) ∧
          L.Grows s' s'' ∧ (∀ i, pos ≤ i → i < pos + l.length → L.Stored s'' i) ∧ ∀ q, L.Ok s'' q)

section Writes
variable {L : Layout σ} {buf : List UInt8} {bufs : List (List UInt8)}

/-- How a write ends: `k` bytes are done, which is all of them unless there is no space. -/
structure Written (S : Storage σ ρ) (L : Layout σ) (s : σ) (f : Nat → UInt8) (pos : Nat) (buf : List UInt8)
    (s' : σ) (k : Nat) (full : Bool) : Prop where
  le : k ≤ buf.length
  holds : L.Holds s' (overwrite f pos (buf.take k))
  short : k < buf.length → full = true ∧ S.Full s' (pos + k)
  grows : L.Grows s s'
  stored : ∀ i, pos ≤ i → i < pos + k → L.Stored s' i
  free : 0 < k → ∀ q, L.Ok s' q

theorem Written.none (holds : L.Holds s f) : Written S L s f pos [] s 0 full where
  le := le_rfl
  holds := by simpa using holds
  short less := by simp at less
  grows := .refl
  stored i low high := by omega
  free some := by simp at some

theorem Written.append {s' s'' : σ} {l r : List UInt8} {k : Nat} {full' : Bool}
    (first : Written S L s f pos l s' l.length full)
    (second : Written S L s' (overwrite f pos l) (pos + l.length) r s'' k full') :
    Written S L s f pos (l ++ r) s'' (l.length + k) full' where
  le := by
    have le := second.le
    rw [length_append]
    omega
  holds := by
    have holds := second.holds
    rw [overwrite_append] at holds
    rwa [take_length_add_append]
  short less := by
    rw [length_append] at less
    have short := second.short (by omega)
    rwa [Nat.add_assoc] at short
  grows := first.grows.trans second.grows
  stored i low high := by
    by_cases here : i < pos + l.length
    · exact second.grows.stored i (first.stored i low here)
    · exact second.stored i (by omega) (by omega)
  free some q := by
    by_cases none : l.length = 0
    · exact second.free (by omega) q
    · exact second.grows.ok q (first.free (by omega) q)

theorem Writes.writeVector (writes : Writes S L) (full : Bool) (enough : buf.length ≤ n) (holds : L.Holds s f)
    (ok : buf ≠ [] → L.Ok s pos) :
    ∃ s' k full', S.writeVector n s pos buf full = some (s', pos + k, full') ∧
      Written S L s f pos buf s' k full' := by
  induction n generalizing s f pos buf full with
  | zero =>
    obtain rfl : buf = [] := length_eq_zero_iff.mp (by omega)
    exact ⟨s, 0, full, rfl, .none holds⟩
  | succ n ih =>
    cases whole : buf with
    | nil => exact ⟨s, 0, full, rfl, .none holds⟩
    | cons b rest =>
      rw [← whole]
      have unroll : S.writeVector (n + 1) s pos buf full = match S.findbuffer s pos true with
          | none => none
          | some (s, .noSpace) => some (s, pos, true)
          | some (_, .buffer none _) => none
          | some (s, .buffer (some fbuf) bsize) =>
            (S.store s fbuf (buf.take (min buf.length bsize))).bind fun s =>
              S.writeVector n s (pos + min buf.length bsize) (buf.drop (min buf.length bsize)) false := by
        rw [whole]
        rfl
      rw [unroll]
      obtain ⟨s', holds', grows, ⟨found, stays⟩ | ⟨fbuf, bsize, found, positive, stores⟩⟩ :=
        writes.find holds (ok (by simp [whole]))
      · rw [found]
        refine ⟨s', 0, true, rfl, zero_le _, by simpa using holds', fun _ => ⟨rfl, stays⟩, grows, ?_, ?_⟩
        · intro i low high
          omega
        · intro less
          simp at less
      · rw [found]
        dsimp only
        generalize amount : min buf.length bsize = l
        have length : (buf.take l).length = l := by
          rw [length_take]
          omega
        obtain ⟨s'', stored, holds'', grows', inside, free⟩ := stores (buf.take l) (by omega)
        have first : Written S L s f pos (buf.take l) s'' (buf.take l).length false :=
          ⟨le_rfl, by rwa [take_length], fun less => absurd less (lt_irrefl _), grows.trans grows', inside,
            fun _ => free⟩
        obtain ⟨s₃, k, full', result, second⟩ :=
          @ih s'' (overwrite f pos (buf.take l)) (pos + l) (buf.drop l) false
            (by rw [length_drop]; omega) holds'' fun _ => free _
        have both := first.append (by rwa [length])
        rw [take_append_drop, length] at both
        refine ⟨s₃, l + k, full', ?_, both⟩
        rw [stored, bind_some, result, Nat.add_assoc]

theorem writeVectors_full (none : S.Full s pos) : S.writeVectors s pos bufs true = some (s, pos, true) := by
  induction bufs with
  | nil => rfl
  | cons buf bufs ih =>
    have first : S.writeVector buf.length s pos buf true = some (s, pos, true) := by
      cases buf with
      | nil => rfl
      | cons b rest =>
        simp only [length_cons, writeVector]
        rw [show S.findbuffer s pos true = some (s, .noSpace) from none]
    simp [writeVectors, first, ih]

theorem Writes.writeVectors (writes : Writes S L) (full : Bool) (holds : L.Holds s f) (ok : bufs.flatten ≠ [] → L.Ok s pos) :
    ∃ s' k full', S.writeVectors s pos bufs full = some (s', pos + k, full') ∧
      Written S L s f pos bufs.flatten s' k full' := by
  induction bufs generalizing s f pos full with
  | nil => exact ⟨s, 0, full, rfl, .none holds⟩
  | cons buf bufs ih =>
    have allowed : buf ≠ [] → L.Ok s pos := fun some => ok (by simp [some])
    obtain ⟨s', k, full', result, first⟩ := writes.writeVector full le_rfl holds allowed
    have unroll : S.writeVectors s pos (buf :: bufs) full = S.writeVectors s' (pos + k) bufs full' := by
      simp [writeVectors, result]
    rw [unroll, flatten_cons]
    by_cases all : k = buf.length
    · subst all
      have holds' := first.holds
      rw [take_length] at holds'
      have later : bufs.flatten ≠ [] → L.Ok s' (pos + buf.length) := by
        intro more
        by_cases none : buf = []
        · have here := first.grows.ok pos (ok (by simp [more]))
          simpa [none] using here
        · exact first.free (length_pos_iff.mpr none) _
      obtain ⟨s'', k', full'', result', second⟩ := ih full' holds' later
      exact ⟨s'', buf.length + k', full'', by rw [result', Nat.add_assoc], first.append second⟩
    · have less : k < buf.length := lt_of_le_of_ne first.le all
      obtain ⟨rfl, stays⟩ := first.short less
      refine ⟨s', k, true, writeVectors_full stays, ?_, ?_, fun _ => ⟨rfl, stays⟩, first.grows, first.stored, first.free⟩
      · rw [length_append]
        omega
      · rw [take_append_of_le_length first.le]
        exact first.holds

section Unbounded
variable {s' : σ} {pos' : Nat}

section
variable (space : ∀ s pos s', S.findbuffer s pos true ≠ some (s', .noSpace))
include space

theorem writeVector_unbounded (result : S.writeVector n s pos buf false = some (s', pos', full)) : full = false := by
  induction n generalizing s pos buf with
  | zero =>
    cases buf with
    | nil => simp_all [writeVector]
    | cons b rest => simp [writeVector] at result
  | succ n ih =>
    cases buf with
    | nil => simp_all [writeVector]
    | cons b rest =>
      simp only [writeVector] at result
      split at result
      · simp at result
      · next found => exact absurd found (space _ _ _)
      · simp at result
      · obtain ⟨_, _, later⟩ := bind_eq_some_iff.mp result
        exact ih later

theorem writeVectors_unbounded (result : S.writeVectors s pos bufs false = some (s', pos', full)) : full = false := by
  induction bufs generalizing s pos with
  | nil => simp_all [writeVectors]
  | cons buf bufs ih =>
    obtain ⟨⟨s₁, pos₁, full₁⟩, first, rest⟩ := bind_eq_some_iff.mp result
    obtain rfl := writeVector_unbounded space first
    exact ih rest

end

end Unbounded

theorem Writes.foWrite (writes : Writes S L) (node : Node σ) (fp : Handle) (bufs : List (List UInt8)) (holds : L.Holds node.data f)
    (ok : bufs.flatten ≠ [] → L.Ok node.data (startOf node fp)) :
    ∃ data k full, S.foWrite node fp bufs = some (⟨max node.size (startOf node fp + k), data⟩,
        { fp with offset := startOf node fp + k }, full) ∧
      Written S L node.data f (startOf node fp) bufs.flatten data k full ∧
      ((∀ s pos s', S.findbuffer s pos true ≠ some (s', .noSpace)) → full = false) := by
  obtain ⟨data, k, full, result, written⟩ := writes.writeVectors false holds ok
  exact ⟨data, k, full, by simp [Storage.foWrite, result], written, fun space => writeVectors_unbounded space result⟩

end Writes

end Ecos.Ramfs.Storage
