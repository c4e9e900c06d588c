import Ecos.Lib.Lies
import Ecos.Redboot.Fconfig

namespace Ecos.Redboot
open List Nat

/-- An object of the configuration data, its value as the whole field. -/
structure Cell where
  type : CfgType
  key : CString
  enable : Option CString
  sense : UInt8
  field : List UInt8

section Strings
variable {mem : Nat → UInt8} {p : Nat} {l r : List UInt8}

theorem strEq_iff : strEq mem p l = true ↔ Lies mem p (l ++ [0]) := by
  induction l generalizing p with
  | nil => simp [strEq, lies_cons]
  | cons c cs ih => rw [strEq, Bool.and_eq_true, decide_eq_true_eq, ih, cons_append, lies_cons]

theorem string_unique (left : Lies mem p (l ++ [0])) (right : Lies mem p (r ++ [0])) (plain : 0 ∉ l) (plain' : 0 ∉ r) :
    l = r := by
  induction l generalizing p r with
  | nil =>
    cases r with
    | nil => rfl
    | cons c cs =>
      have zero := (lies_cons.mp left).1
      have other := (lies_cons.mp right).1
      exact absurd (by simp [← other, zero]) plain'
  | cons c cs ih =>
    cases r with
    | nil =>
      have zero := (lies_cons.mp right).1
      have other := (lies_cons.mp left).1
      exact absurd (by simp [← other, zero]) plain
    | cons d ds =>
      obtain ⟨first, rest⟩ := lies_cons.mp left
      obtain ⟨first', rest'⟩ := lies_cons.mp right
      rw [← first, ← first', ih rest rest' (fun zero => plain (mem_cons_of_mem _ zero))
        fun zero => plain' (mem_cons_of_mem _ zero)]

theorem strEq_string (lies : Lies mem p (l ++ [0])) (plain : 0 ∉ l) (plain' : 0 ∉ r) :
    strEq mem p r = decide (l = r) := by
  by_cases same : l = r
  · rw [decide_eq_true same, ← same]
    exact strEq_iff.mpr lies
  · rw [decide_eq_false same]
    exact Bool.eq_false_iff.mpr fun found => same (string_unique lies (strEq_iff.mp found) plain plain')

theorem schar_ofNat {n : Nat} (small : n ≤ 127) : schar (UInt8.ofNat n) = n := by
  have all : ∀ n ≤ 127, schar (UInt8.ofNat n) = (n : Int) := by decide
  exact all n small

end Strings

namespace CfgType

theorem ofCode_code (t : CfgType) : ofCode t.code = some t := by cases t <;> rfl

theorem code_ne_zero (t : CfgType) : t.code ≠ 0 := by cases t <;> decide

theorem code_inj {t u : CfgType} (same : t.code = u.code) : t = u := by
  have found := ofCode_code t
  rw [same, ofCode_code] at found
  exact (Option.some.inj found).symm

end CfgType

namespace Cell
variable {b : Build} {mem : Nat → UInt8} {p q : Nat} {c : Cell} {cs : List Cell} {key : List UInt8}

def enableBytes (c : Cell) : List UInt8 := c.enable.elim [] fun enable => enable.bytes ++ [0]

def head (c : Cell) : List UInt8 :=
  [c.type.code, UInt8.ofNat (c.key.bytes.length + 1), c.sense, UInt8.ofNat c.enableBytes.length]

/-- Where the field begins in the object. -/
def start (c : Cell) : Nat := 4 + (c.key.bytes.length + 1) + c.enableBytes.length

def bytes (c : Cell) : List UInt8 := c.head ++ (c.key.bytes ++ [0]) ++ c.enableBytes ++ c.field

def size (c : Cell) : Nat := c.start + c.field.length

@[simp] theorem bytes_length : c.bytes.length = c.size := by
  simp only [bytes, head, size, start, length_append, length_cons, length_nil]

/-- The value of a field: a string ends at its first zero, of an Ethernet address six bytes count. -/
def value : CfgType → List UInt8 → List UInt8
  | .bool, field | .int, field | .ip, field => field
  | .esa, field => field.take 6
  | .string, field | .script, field | .netport, field => field.takeWhile (· ≠ 0)

/-- Values that end with a zero. -/
def isString : CfgType → Bool
  | .string | .script | .netport => true
  | _ => false

/-- Lengths that fit into signed bytes, a key, a whole field, and the end of a string inside it. -/
structure Ok (b : Build) (c : Cell) : Prop where
  key_some : c.key.bytes ≠ []
  key_short : c.key.bytes.length + 1 ≤ 127
  enable_short : c.enableBytes.length ≤ 127
  field_length : c.field.length = b.configLength c.type
  ended : isString c.type → 0 ∈ c.field

section
variable (lies : Lies mem p c.bytes)
include lies

theorem head_at : mem p = c.type.code ∧ mem (p + 1) = UInt8.ofNat (c.key.bytes.length + 1) ∧ mem (p + 2) = c.sense ∧
      mem (p + 3) = UInt8.ofNat c.enableBytes.length := by
  rw [bytes, append_assoc, append_assoc] at lies
  obtain ⟨head, -⟩ := lies_append.mp lies
  obtain ⟨type, tail⟩ := lies_cons.mp head
  obtain ⟨keylen, tail⟩ := lies_cons.mp tail
  obtain ⟨sense, tail⟩ := lies_cons.mp tail
  exact ⟨type, keylen, sense, (lies_cons.mp tail).1⟩

theorem key_at : Lies mem (p + 4) (c.key.bytes ++ [0]) := by
  rw [bytes, append_assoc, append_assoc] at lies
  exact (lies_append.mp (lies_append.mp lies).2).1

theorem field_at : Lies mem (p + c.start) c.field := by
  have field := (lies_append.mp lies).2
  have place : p + (c.head ++ (c.key.bytes ++ [0]) ++ c.enableBytes).length = p + c.start := by
    simp only [head, start, length_append, length_cons, length_nil]
  rwa [place] at field

theorem objectLen_at (ok : Ok b c) : b.objectLen mem p = c.size := by
  obtain ⟨type, keylen, -, elen⟩ := head_at lies
  rw [Build.objectLen, type, keylen, elen, schar_ofNat ok.key_short, schar_ofNat ok.enable_short, Build.lengthOf,
    CfgType.ofCode_code, Option.elim, ← ok.field_length, size, start]
  omega

theorem objectValue_at (ok : Ok b c) : objectValue mem p = p + c.start := by
  obtain ⟨-, keylen, -, elen⟩ := head_at lies
  rw [objectValue, keylen, elen, schar_ofNat ok.key_short, schar_ofNat ok.enable_short, start]
  omega

end

theorem size_pos : 4 < c.size := by
  rw [size, start]
  omega

theorem strEq_at (lies : Lies mem p c.bytes) (plain : 0 ∉ key) : strEq mem (p + 4) key = decide (c.key.bytes = key) :=
  strEq_string (key_at lies) c.key.plain plain

/-- The objects one after the other from `p` to `q`. -/
def Chain (mem : Nat → UInt8) : Nat → List Cell → Nat → Prop
  | p, [], q => p = q
  | p, c :: cs, q => Lies mem p c.bytes ∧ Chain mem (p + c.size) cs q

theorem Chain.le (chain : Chain mem p cs q) : p ≤ q := by
  induction cs generalizing p with
  | nil => exact le_of_eq chain
  | cons c cs ih => exact (le_add_right p c.size).trans (ih chain.2)

theorem Chain.congr {mem' : Nat → UInt8} (chain : Chain mem p cs q) (same : ∀ i, p ≤ i → i < q → mem' i = mem i) :
    Chain mem' p cs q := by
  induction cs generalizing p with
  | nil => exact chain
  | cons c cs ih =>
    obtain ⟨lies, rest⟩ := chain
    have far := rest.le
    refine ⟨lies.congr fun i low high => same i low ?_, ih rest fun i low high => same i (by omega) high⟩
    rw [bytes_length] at high
    omega

theorem Chain.append (chain : Chain mem p cs q) (lies : Lies mem q c.bytes) : Chain mem p (cs ++ [c]) (q + c.size) := by
  induction cs generalizing p with
  | nil =>
    obtain rfl : p = q := chain
    exact ⟨lies, rfl⟩
  | cons d ds ih => exact ⟨chain.1, ih chain.2⟩

/-- Where the object of a key lies. -/
def place (key : List UInt8) : List Cell → Nat → Option Nat
  | [], _ => none
  | c :: cs, p => if c.key.bytes = key then some p else place key cs (p + c.size)

theorem place_none : place key cs p = none ↔ ∀ c ∈ cs, c.key.bytes ≠ key := by
  induction cs generalizing p with
  | nil => simp [place]
  | cons c cs ih =>
    rw [place, forall_mem_cons]
    split
    · next same => simp [same]
    · next other => simp [other, ih]

theorem Chain.place_some (chain : Chain mem p cs q) {spot : Nat} (found : place key cs p = some spot) :
    p ≤ spot ∧ ∃ c ∈ cs, c.key.bytes = key ∧ Lies mem spot c.bytes ∧ spot + c.size ≤ q := by
  induction cs generalizing p with
  | nil => simp [place] at found
  | cons c cs ih =>
    obtain ⟨lies, rest⟩ := chain
    rw [place] at found
    split at found
    · next same =>
      cases found
      exact ⟨le_rfl, c, mem_cons_self, same, lies, rest.le⟩
    · obtain ⟨low, d, member, same, lies', inside⟩ := ih rest found
      exact ⟨by omega, d, mem_cons_of_mem _ member, same, lies', inside⟩

/-- The values of `l` at the start of the field. -/
def put (c : Cell) (l : List UInt8) : Cell := { c with field := l ++ c.field.drop l.length }

theorem put_length {l : List UInt8} (fits : l.length ≤ c.field.length) : (c.put l).field.length = c.field.length := by
  simp only [put, length_append, length_drop]
  omega

theorem lies_put {l : List UInt8} (lies : Lies mem p c.bytes) (fits : l.length ≤ c.field.length) :
    Lies (overwrite mem (p + c.start) l) p (c.put l).bytes := by
  have length : (c.head ++ (c.key.bytes ++ [0]) ++ c.enableBytes).length = c.start := by
    simp only [head, start, length_append, length_cons, length_nil]
  exact Lies.inside lies (congrArg (p + ·) length.symm) fits

/-- The object of the key with a piece written into its field. -/
def putAt (key : List UInt8) (l : List UInt8) (cs : List Cell) : List Cell :=
  cs.map fun c => if c.key.bytes = key then c.put l else c

theorem Chain.putAt {spot : Nat} {l : List UInt8} (chain : Chain mem p cs q)
    (distinct : (cs.map fun c => c.key.bytes).Nodup) (found : place key cs p = some spot)
    (member : c ∈ cs) (same : c.key.bytes = key) (fits : l.length ≤ c.field.length) :
    Chain (overwrite mem (spot + c.start) l) p (Cell.putAt key l cs) q := by
  induction cs generalizing p with
  | nil => simp at member
  | cons d ds ih =>
    obtain ⟨lies, rest⟩ := chain
    obtain ⟨fresh, distinct⟩ := nodup_cons.mp distinct
    rw [place] at found
    rw [Cell.putAt, map_cons]
    by_cases first : d.key.bytes = key
    · rw [if_pos first] at found ⊢
      cases found
      have others : ∀ e ∈ ds, e.key.bytes ≠ key := by
        intro e inside equal
        exact fresh (mem_map.mpr ⟨e, inside, equal.trans first.symm⟩)
      obtain rfl : c = d := by
        rcases mem_cons.mp member with here | there
        · exact here
        · exact absurd same (others c there)
      have unchanged : (ds.map fun e => if e.key.bytes = key then e.put l else e) = ds := by
        conv_rhs => rw [← map_id ds]
        exact map_congr_left fun e inside => if_neg (others e inside)
      have equal : (c.put l).size = c.size := by rw [size, put_length fits, size]; rfl
      rw [unchanged]
      refine ⟨lies_put lies fits, ?_⟩
      rw [equal]
      refine rest.congr fun i low high => overwrite_of_ge ?_
      rw [size] at low
      omega
    · rw [if_neg first] at found ⊢
      have inside : c ∈ ds := by
        rcases mem_cons.mp member with here | there
        · exact absurd (here ▸ same) first
        · exact there
      have far := (rest.place_some found).1
      refine ⟨lies.overwrite (.inl ?_), ih rest distinct found inside⟩
      rw [bytes_length]
      omega

/-- The places of all objects. -/
def places : List Cell → Nat → List Nat
  | [], _ => []
  | c :: cs, p => p :: places cs (p + c.size)

end Cell

/-- Zeros from `q` up to `n`. -/
def Blank (mem : Nat → UInt8) (q n : Nat) : Prop := ∀ i, q ≤ i → i < n → mem i = 0

/-- No string equal to the key begins in the four bytes after the data. -/
def Unlike (b : Build) (mem : Nat → UInt8) (key : List UInt8) : Prop := ∀ j < 4, strEq mem (b.size + j) key = false

namespace Build
variable {b : Build} {mem : Nat → UInt8} {p q fuel : Nat} {cs : List Cell} {key : List UInt8}

open Cell

theorem lookupFrom_blank (blank : Blank mem p b.size) (some : key ≠ []) (plain : 0 ∉ key) (unlike : Unlike b mem key) :
    b.lookupFrom mem key fuel p = none := by
  induction fuel generalizing p with
  | zero => rfl
  | succ fuel ih =>
    rw [lookupFrom]
    split
    · next inside =>
      have other : strEq mem (p + 4) key = false := by
        by_cases near : p + 4 < b.size
        · cases key with
          | nil => exact absurd rfl some
          | cons k ks =>
            have zero := blank (p + 4) (by omega) near
            rw [strEq, zero]
            have differs : (0 : UInt8) ≠ k := fun same => plain (by simp [same])
            simp [differs]
        · have place : p + 4 = b.size + (p + 4 - b.size) := by omega
          rw [place]
          exact unlike _ (by omega)
      rw [if_neg (by rw [other]; exact Bool.false_ne_true)]
      split
      · rfl
      · exact ih fun i low high => blank i (by omega) high
    · rfl

section
variable (chain : Chain mem p cs q)
include chain

theorem lookupFrom_chain (ok : ∀ c ∈ cs, Ok b c) (inside : q ≤ b.size)
    (blank : Blank mem q b.size) (some : key ≠ []) (plain : 0 ∉ key) (unlike : Unlike b mem key)
    (enough : b.size ≤ fuel + p) : b.lookupFrom mem key fuel p = place key cs p := by
  induction cs generalizing p fuel with
  | nil =>
    obtain rfl : p = q := chain
    exact lookupFrom_blank blank some plain unlike
  | cons c cs ih =>
    obtain ⟨lies, rest⟩ := chain
    have far := rest.le
    have positive := @size_pos c
    have okc := ok c mem_cons_self
    obtain ⟨fuel, rfl⟩ : ∃ k, fuel = k + 1 := ⟨fuel - 1, by omega⟩
    rw [lookupFrom, place, if_pos (by omega), strEq_at lies plain, objectLen_at lies okc]
    by_cases same : c.key.bytes = key
    · rw [if_pos (decide_eq_true same), if_pos same]
    · rw [if_neg (by simp [same]), if_neg same, if_neg (by omega), Int.toNat_natCast]
      exact ih rest (fun d member => ok d (mem_cons_of_mem _ member)) (by omega)

theorem findEmpty_chain (ok : ∀ c ∈ cs, Ok b c) (inside : q ≤ b.size)
    (blank : Blank mem q b.size) (enough : b.size < fuel + p) :
    b.findEmpty mem fuel p = some (if q < b.size then some q else none) := by
  induction cs generalizing p fuel with
  | nil =>
    obtain rfl : p = q := chain
    obtain ⟨fuel, rfl⟩ : ∃ k, fuel = k + 1 := ⟨fuel - 1, by omega⟩
    rw [findEmpty]
    split
    · next below => rw [if_pos (blank p le_rfl below)]
    · rfl
  | cons c cs ih =>
    obtain ⟨lies, rest⟩ := chain
    have far := rest.le
    have positive := @size_pos c
    have okc := ok c mem_cons_self
    obtain ⟨fuel, rfl⟩ : ∃ k, fuel = k + 1 := ⟨fuel - 1, by omega⟩
    rw [findEmpty, if_pos (by omega), (head_at lies).1, if_neg c.type.code_ne_zero, objectLen_at lies okc,
      if_neg (by omega)]
    have next : ((p : Int) + (c.size : Int)).toNat = p + c.size := by omega
    rw [next]
    exact ih rest (fun d member => ok d (mem_cons_of_mem _ member)) (by omega)

theorem findEntry_chain (ok : ∀ c ∈ cs, Ok b c) (inside : q ≤ b.size)
    (blank : Blank mem q b.size) (plain : 0 ∉ key) (enough : b.size < fuel + p) :
    b.findEntry mem key fuel p = place key cs p := by
  induction cs generalizing p fuel with
  | nil =>
    obtain rfl : p = q := chain
    obtain ⟨fuel, rfl⟩ : ∃ k, fuel = k + 1 := ⟨fuel - 1, by omega⟩
    rw [findEntry, if_neg]
    · rfl
    · rintro ⟨below, some⟩
      exact some (blank p le_rfl below)
  | cons c cs ih =>
    obtain ⟨lies, rest⟩ := chain
    have far := rest.le
    have positive := @size_pos c
    have okc := ok c mem_cons_self
    obtain ⟨fuel, rfl⟩ : ∃ k, fuel = k + 1 := ⟨fuel - 1, by omega⟩
    have here : p < b.size ∧ mem p ≠ 0 := ⟨by omega, by rw [(head_at lies).1]; exact c.type.code_ne_zero⟩
    rw [findEntry, place, if_pos here, strEq_at lies plain, objectLen_at lies okc]
    by_cases same : c.key.bytes = key
    · rw [if_pos (decide_eq_true same), if_pos same]
    · have next : ((p : Int) + (c.size : Int)).toNat = p + c.size := by omega
      rw [if_neg (by simp [same]), if_neg same, if_neg (by omega), next]
      exact ih rest (fun d member => ok d (mem_cons_of_mem _ member)) (by omega)

theorem walk_chain (ok : ∀ c ∈ cs, Ok b c) (inside : q ≤ b.size)
    (blank : Blank mem q b.size) (enough : b.size < fuel + p) : b.walk mem fuel p = some (places cs p) := by
  induction cs generalizing p fuel with
  | nil =>
    obtain rfl : p = q := chain
    obtain ⟨fuel, rfl⟩ : ∃ k, fuel = k + 1 := ⟨fuel - 1, by omega⟩
    rw [walk, if_pos]
    · rfl
    · rcases lt_or_eq_of_le inside with below | at_end
      · exact .inr ⟨below, blank p le_rfl below⟩
      · exact .inl at_end
  | cons c cs ih =>
    obtain ⟨lies, rest⟩ := chain
    have far := rest.le
    have positive := @size_pos c
    have okc := ok c mem_cons_self
    obtain ⟨fuel, rfl⟩ : ∃ k, fuel = k + 1 := ⟨fuel - 1, by omega⟩
    have here : ¬ (p = b.size ∨ p < b.size ∧ mem p = 0) := by
      rintro (last | ⟨-, zero⟩)
      · omega
      · rw [(head_at lies).1] at zero
        exact c.type.code_ne_zero zero
    rw [walk, if_neg here, objectLen_at lies okc, if_pos ⟨by omega, by omega⟩, Int.toNat_natCast,
      ih rest (fun d member => ok d (mem_cons_of_mem _ member)) (by omega)]
    rfl

end

theorem stringAt_lies {l : List UInt8} (lies : Lies mem p (l ++ [0])) (plain : 0 ∉ l) (short : l.length < b.size) :
    b.stringAt mem p = l := by
  have rest : window mem p b.size = (l ++ [0]) ++ window mem (p + (l.length + 1)) (b.size - (l.length + 1)) := by
    have total : b.size = (l ++ [0]).length + (b.size - (l.length + 1)) := by
      rw [length_append, length_singleton]
      omega
    conv_lhs => rw [total, window_append, lies]
    rw [length_append, length_singleton]
  rw [stringAt, rest, append_assoc, takeWhile_append_of_pos, singleton_append,
    takeWhile_cons_of_neg (by simp), append_nil]
  intro a member
  exact decide_eq_true fun zero => plain (zero ▸ member)

end Build

end Ecos.Redboot
