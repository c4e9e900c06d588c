import Mathlib.Data.List.Basic

namespace Ecos.Fileio

/-- A string, without the zero at its end. -/
abbrev Path := List UInt8

def slash : UInt8 := 47

/-- The loop of `matchlen`. -/
def common : Path → Path → Nat
  | a :: s1, b :: s2 => if a = b then common s1 s2 + 1 else 0
  | _, _ => 0

/-- `matchlen`: a length only if `s2` begins `s1` and ends there at a separator or at the end. -/
def matchlen (s1 s2 : Path) : Nat :=
  let len := common s1 s2
  if len = 1 ∧ s2 = [slash] then len
  else if s2.drop len = [] ∧ (s1.drop len = [] ∨ (s1.drop len).head? = some slash) then len
  else 0

/-- `cyg_mtab_entry`, as far as `cyg_mtab_lookup` reads it. -/
structure MtabEntry (δ : Type) where
  name : Option Path
  valid : Bool
  root : δ

variable {δ : Type}

/-- The loops over the mount table: the last of the entries with a longer match than all before. -/
def bestOf (len : Path → Nat) : List (MtabEntry δ) → Nat → Option Nat → Nat → Option Nat × Nat
  | [], _, best, bestLen => (best, bestLen)
  | m :: mtab, i, best, bestLen =>
    match m.name with
    | none => bestOf len mtab (i + 1) best bestLen
    | some name =>
      if m.valid = true ∧ len name > bestLen then bestOf len mtab (i + 1) (some i) (len name)
      else bestOf len mtab (i + 1) best bestLen

/-- What a relative `name` has in common with a mount point under that of the current directory. -/
def relativeLen (cwd name mount : Path) : Nat :=
  let len := matchlen mount cwd
  if len = cwd.length then
    let len := if (mount.drop len).head? = some slash then len + 1 else len
    matchlen name (mount.drop len)
  else 0

/-- The name is moved behind the match and one separator. -/
def remainder (name : Path) (len : Nat) : Path :=
  if (name.drop len).head? = some slash then name.drop (len + 1) else name.drop len

/-- `cyg_mtab_lookup`. Inside, `none` is the return value -1; outside it is an access through
a null pointer. -/
def mtabLookup (mtab : List (MtabEntry δ)) (dir : δ) (name : Path) (mte : Option Nat) : Option
    (Option (Nat × δ × Path)) :=
  if name.head? ≠ some slash then
    match mte with
    | none => some none
    | some cur => (mtab[cur]?).bind fun m => m.name.bind fun cwd =>
      let (best, bestLen) := bestOf (relativeLen cwd name) mtab 0 (some cur) 0
      best.bind fun best => (mtab[best]?).map fun m =>
        some (best, if best ≠ cur then m.root else dir, remainder name bestLen)
  else
    let (best, bestLen) := bestOf (matchlen name) mtab 0 none 0
    if bestLen = 0 then some none
    else best.bind fun best => (mtab[best]?).map fun m => some (best, m.root, remainder name bestLen)

open List Option

/-- The components of a path, as they stand between separators. -/
def split (s : Path) : List Path := s.splitOn slash

/-- The components that are names. -/
def parts (s : Path) : List Path := (split s).filter (· ≠ [])

def join (cs : List Path) : Path := [slash].intercalate cs

/-- The normalised absolute path with the given components. -/
def absName (cs : List Path) : Path := slash :: join cs

def Normal (cs : List Path) : Prop := ∀ c ∈ cs, c ≠ [] ∧ slash ∉ c

/-- The string begins with `t`, which ends there at a separator or at the end. -/
def Begins (s t : Path) : Prop := t <+: s ∧ (s.drop t.length = [] ∨ (s.drop t.length).head? = some slash)

instance (s t : Path) : Decidable (Begins s t) := inferInstanceAs (Decidable (_ ∧ _))

variable {s t r : Path} {cs K L : List Path}

theorem common_append (t u : Path) : common (t ++ u) t = t.length := by
  induction t with
  | nil => cases u <;> rfl
  | cons a t ih => rw [cons_append, common, if_pos rfl, ih, length_cons]

theorem drop_common (ended : t.drop (common s t) = []) : t <+: s := by
  induction t generalizing s with
  | nil => exact nil_prefix
  | cons b t ih =>
    cases s with
    | nil => simp [common] at ended
    | cons a s =>
      rw [common] at ended
      split at ended
      · next same =>
        rw [same]
        exact List.cons_prefix_cons.mpr ⟨rfl, ih ended⟩
      · simp at ended

theorem matchlen_eq (other : t ≠ [slash]) : matchlen s t = if Begins s t then t.length else 0 := by
  rw [matchlen, if_neg fun both => other both.2]
  by_cases begins : t <+: s
  · obtain ⟨u, rfl⟩ := begins
    rw [common_append, drop_length]
    by_cases ends : (t ++ u).drop t.length = [] ∨ ((t ++ u).drop t.length).head? = some slash
    · rw [if_pos ⟨rfl, ends⟩, if_pos ⟨prefix_append .., ends⟩]
    · rw [if_neg fun both => ends both.2, if_neg fun both => ends both.2]
  · rw [if_neg fun both => begins (drop_common both.1), if_neg fun both => begins both.1]

theorem matchlen_root (s : Path) : matchlen (slash :: s) [slash] = 1 := by
  rw [matchlen, show common (slash :: s) [slash] = 1 from common_append [slash] s]
  rfl

theorem join_append (left : K ≠ []) (right : L ≠ []) : join (K ++ L) = join K ++ slash :: join L := by
  induction K with
  | nil => exact absurd rfl left
  | cons c K ih =>
    cases K with
    | nil =>
      cases L with
      | nil => exact absurd rfl right
      | cons d L =>
        rw [singleton_append, join, join, join, intercalate_cons_cons, intercalate_singleton,
          append_assoc]
        rfl
    | cons d K =>
      have step := ih (by simp)
      rw [join, cons_append, cons_append, intercalate_cons_cons, ← cons_append, ← join, step, join, join,
        join, intercalate_cons_cons]
      simp

theorem Normal.noSlash (normal : Normal cs) : ∀ c ∈ cs, slash ∉ c := fun c mem => (normal c mem).2

theorem split_join (normal : Normal K) (some : K ≠ []) : split
    (join K) = K := splitOn_intercalate slash normal.noSlash some

theorem join_split (s : Path) : join (split s) = s := intercalate_splitOn slash

theorem begins_iff (normal : Normal K) (some : K ≠ []) : Begins s (join K) ↔ K <+: split s := by
  constructor
  · rintro ⟨⟨u, rfl⟩, ends⟩
    rw [drop_left] at ends
    cases u with
    | nil =>
      have whole : split (join K ++ []) = K := by rw [append_nil, split_join normal some]
      simp only [whole, prefix_rfl]
    | cons a u =>
      obtain rfl : a = slash := by simpa using ends
      rw [split, splitOn_append_cons_self, ← split, split_join normal some]
      exact prefix_append ..
  · rintro ⟨L, whole⟩
    by_cases last : L = []
    · subst last
      rw [append_nil] at whole
      rw [whole, join_split]
      exact ⟨prefix_refl s, .inl drop_length⟩
    · have form := join_split s
      rw [← whole, join_append some last] at form
      rw [← form]
      exact ⟨prefix_append .., .inr (by rw [drop_left]; rfl)⟩

theorem parts_nil : parts [] = [] := rfl

theorem parts_slash (s : Path) : parts (slash :: s) = parts s := by
  rw [parts, split, show slash :: s = [] ++ slash :: s from rfl, splitOn_append_cons_self]
  rfl

section
variable (normal : Normal K)
include normal

theorem Normal.filter : K.filter (· ≠ []) = K :=
  filter_eq_self.mpr fun c mem => decide_eq_true (normal c mem).1

theorem parts_join : parts (join K) = K := by
  by_cases none : K = []
  · rw [none]
    rfl
  · rw [parts, split_join normal none, normal.filter]

theorem parts_append (some : K ≠ []) : parts (join K ++ slash :: s) = K ++ parts s := by
  rw [parts, split, splitOn_append_cons_self, filter_append, ← split, split_join normal some, normal.filter]
  rfl

theorem parts_remainder (some : K ≠ []) (begins : K <+: split s) :
    parts s = K ++ parts (remainder s (join K).length) := by
  obtain ⟨⟨u, rfl⟩, ends⟩ := (begins_iff normal some).mpr begins
  rw [drop_left] at ends
  rw [remainder, drop_left]
  cases u with
  | nil => simp [parts_nil, parts_join normal]
  | cons a u =>
    obtain rfl : a = slash := by simpa using ends
    rw [head?_cons, if_pos rfl, parts_append normal some, drop_append, drop_eq_nil_of_le (by omega)]
    simp

theorem join_ne : join K ≠ [slash] := by
  intro same
  have names := parts_join normal
  rw [same, parts_slash, parts_nil] at names
  rw [← names] at same
  exact absurd same (by decide)

theorem matchlen_join (some : K ≠ []) : matchlen s (join K) = if K <+: split s then (join K).length else 0 := by
  rw [matchlen_eq (join_ne normal)]
  exact if_congr (begins_iff normal some) rfl rfl

end

theorem matchlen_abs (normal : Normal cs) :
    matchlen (slash :: s) (absName cs) = if cs <+: split s then (absName cs).length else 0 := by
  by_cases none : cs = []
  · subst none
    rw [if_pos nil_prefix]
    exact matchlen_root s
  · have long : join cs ≠ [] := fun empty => none (by rw [← parts_join normal, empty, parts_nil])
    have other : absName cs ≠ [slash] := fun same => long (cons_inj_right slash |>.mp same)
    rw [matchlen_eq other]
    refine if_congr (Iff.trans ?_ (begins_iff normal none)) rfl rfl
    rw [Begins, Begins, absName, cons_prefix_cons, length_cons, drop_succ_cons]
    simp

theorem parts_remainder_abs (normal : Normal cs) (begins : cs <+: split s) :
    parts (slash :: s) = cs ++ parts (remainder (slash :: s) (absName cs).length) := by
  by_cases none : cs = []
  · subst none
    rw [parts_slash, nil_append]
    change parts s = parts (if s.head? = some slash then s.drop 1 else s)
    cases s with
    | nil => rfl
    | cons a s =>
      by_cases sep : a = slash
      · rw [sep, parts_slash, head?_cons, if_pos rfl]
        rfl
      · rw [head?_cons, if_neg fun same => sep (some.inj same)]
  · rw [parts_slash, parts_remainder normal none begins]
    rfl

theorem join_length_lt (normal : Normal (K ++ L)) (some : L ≠ []) : (join K).length < (join (K ++ L)).length := by
  by_cases none : K = []
  · subst none
    have long : join L ≠ [] := fun empty => some (by
      rw [← parts_join (K := L) (by simpa using normal), empty, parts_nil])
    exact length_pos_iff.mpr long
  · rw [join_append none some, length_append, length_cons]
    omega

theorem prefix_of_length {path : List Path} (normal : Normal K) (one : K <+: path) (two : L <+: path)
    (le : (join K).length ≤ (join L).length) : K <+: L := by
  rcases prefix_or_prefix_of_prefix one two with first | ⟨M, rfl⟩
  · exact first
  · by_cases none : M = []
    · have same : L ++ M = L := by rw [none, append_nil]
      simp only [same, prefix_rfl]
    · have less := join_length_lt normal none
      omega

section Table
variable {δ : Type} {mtab : List (MtabEntry δ)} {len : Path → Nat} {i : Nat} {best b : Option Nat} {bestLen l : Nat}

/-- The entry at an index is in use. -/
def Named (mtab : List (MtabEntry δ)) (i : Nat) (name : Path) : Prop :=
  ∃ m, mtab[i]? = some m ∧ m.valid = true ∧ m.name = some name

theorem Named.head {m : MtabEntry δ} {name : Path} : Named
    (m :: mtab) 0 name ↔ m.valid = true ∧ m.name = some name := by
  simp [Named]

theorem Named.tail {m : MtabEntry δ} {name : Path} {j : Nat} : Named (m :: mtab) (j + 1) name ↔ Named mtab j name := by
  simp [Named]

/-- How the loop ends: with what it began with, or with one of the longest matches. -/
structure Best (len : Path → Nat) (mtab : List (MtabEntry δ)) (i : Nat) (best : Option Nat) (bestLen : Nat)
    (b : Option Nat)
    (l : Nat) : Prop where
  most : ∀ j name, Named mtab j name → len name ≤ l
  ends : (b = best ∧ l = bestLen) ∨ (bestLen < l ∧ ∃ j name, b = some (i + j) ∧ Named mtab j name ∧ len name = l)
  more : bestLen ≤ l

theorem Best.skip {m : MtabEntry δ} (rest : Best len mtab (i + 1) best bestLen b l)
    (short : ∀ name, m.valid = true → m.name = some name → len name ≤ bestLen) :
      Best len (m :: mtab) i best bestLen b l := by
  refine ⟨fun j name named => ?_, rest.ends.imp id fun ⟨lt, j, name, index, named, same⟩ => ?_, rest.more⟩
  · cases j with
    | zero => exact Nat.le_trans (short name (Named.head.mp named).1 (Named.head.mp named).2) rest.more
    | succ j => exact rest.most j name (Named.tail.mp named)
  · exact ⟨lt, j + 1, name, by rw [index]; congr 1; omega, Named.tail.mpr named, same⟩

theorem Best.take {m : MtabEntry δ} {name : Path} (rest : Best len mtab (i + 1) (some i) (len name) b l)
    (valid : m.valid = true) (here : m.name = some name) (longer : bestLen < len name) :
    Best len (m :: mtab) i best bestLen b l := by
  have le := rest.more
  refine ⟨fun j other named => ?_, .inr ⟨by omega, ?_⟩, by omega⟩
  · cases j with
    | zero =>
      obtain rfl : name = other := some.inj (here.symm.trans (Named.head.mp named).2)
      exact le
    | succ j => exact rest.most j other (Named.tail.mp named)
  · rcases rest.ends with ⟨rfl, rfl⟩ | ⟨_, j, other, index, named, same⟩
    · exact ⟨0, name, rfl, Named.head.mpr ⟨valid, here⟩, rfl⟩
    · exact ⟨j + 1, other, by rw [index]; congr 1; omega, Named.tail.mpr named, same⟩

theorem bestOf_spec (run : bestOf len mtab i best bestLen = (b, l)) : Best len mtab i best bestLen b l := by
  induction mtab generalizing i best bestLen with
  | nil =>
    obtain ⟨rfl, rfl⟩ := Prod.mk.inj run
    exact ⟨fun j name named => by simp [Named] at named, .inl ⟨rfl, rfl⟩, Nat.le_refl _⟩
  | cons m mtab ih =>
    rw [bestOf] at run
    split at run
    · next none => exact (ih run).skip fun name _ some => by simp [none] at some
    · next name some =>
      split at run
      · next longer => exact (ih run).take longer.1 some longer.2
      · next not =>
        refine (ih run).skip fun other valid here => ?_
        obtain rfl : name = other := Option.some.inj (some.symm.trans here)
        by_contra more
        exact not ⟨valid, by omega⟩

/-- The names of all entries in use are distinct normalised absolute paths. -/
structure Regular (mtab : List (MtabEntry δ)) : Prop where
  normal : ∀ i name, Named mtab i name → ∃ cs, Normal cs ∧ name = absName cs
  distinct : ∀ i j name, Named mtab i name → Named mtab j name → i = j

/-- There is a mount point with the given components. -/
def MountedAt (mtab : List (MtabEntry δ)) (i : Nat) (cs : List Path) : Prop := Named mtab i (absName cs) ∧ Normal cs

theorem absName_inj {cs cs' : List Path} (normal : Normal cs) (normal' : Normal cs')
    (same : absName cs = absName cs') : cs = cs' := by
  rw [← parts_join normal, ← parts_join normal', (cons_inj_right slash).mp same]

theorem MountedAt.unique {j : Nat} {cs : List Path} (regular : Regular mtab) (one : MountedAt mtab i cs)
    (two : MountedAt mtab j cs) : i = j := regular.distinct i j _ one.1 two.1

theorem MountedAt.same {cs cs' : List Path} (one : MountedAt mtab i cs) (two : MountedAt mtab i cs') : cs = cs' := by
  obtain ⟨⟨m, here, _, name⟩, normal⟩ := one
  obtain ⟨⟨m', here', _, name'⟩, normal'⟩ := two
  obtain rfl : m = m' := some.inj (here.symm.trans here')
  exact absName_inj normal normal' (some.inj (name.symm.trans name'))

theorem Named.regular {name : Path} (regular : Regular mtab) (named : Named mtab i name) :
    ∃ cs, MountedAt mtab i cs ∧ name = absName cs := by
  obtain ⟨cs, normal, rfl⟩ := regular.normal i name named
  exact ⟨cs, ⟨named, normal⟩, rfl⟩

theorem lookup_absolute (regular : Regular mtab) (dir : δ) (s : Path) (mte : Option Nat) :
    (∃ i cs m rest, mtabLookup mtab dir (slash :: s) mte = some (some (i, m.root, rest)) ∧ mtab[i]? = some m ∧
      MountedAt mtab i cs ∧ cs <+: split s ∧ parts (slash :: s) = cs ++ parts rest ∧
      ∀ j cs', MountedAt mtab j cs' → cs' <+: split s → cs' <+: cs) ∨
    (mtabLookup mtab dir (slash :: s) mte = some none ∧ ∀ j cs', MountedAt mtab j cs' → ¬ cs' <+: split s) := by
  rcases found : bestOf (matchlen (slash :: s)) mtab 0 none 0 with ⟨b, l⟩
  have best := bestOf_spec found
  have result : mtabLookup mtab dir (slash :: s) mte = if l = 0 then some none
      else b.bind fun best => (mtab[best]?).map fun m => some (best, m.root, remainder (slash :: s) l) := by
    rw [mtabLookup.eq_def, if_neg (by simp), found]
  rcases best.ends with ⟨rfl, rfl⟩ | ⟨positive, i, name, rfl, named, same⟩
  · refine .inr ⟨result.trans (if_pos rfl), fun j cs' mounted begins => ?_⟩
    have short := best.most j _ mounted.1
    rw [matchlen_abs mounted.2, if_pos begins, absName, length_cons] at short
    omega
  · left
    obtain ⟨cs, mounted, rfl⟩ := named.regular regular
    rw [matchlen_abs mounted.2] at same
    split at same
    swap
    · omega
    next begins =>
    obtain ⟨m, here, _⟩ := named
    refine ⟨i, cs, m, remainder (slash :: s) l, ?_, here, mounted, begins, ?_, fun j cs' mounted' begins' => ?_⟩
    · rw [result, if_neg (by omega), bind_some, Nat.zero_add, here]
      rfl
    · rw [← same]
      exact parts_remainder_abs mounted.2 begins
    · have short := best.most j _ mounted'.1
      rw [matchlen_abs mounted'.2, if_pos begins', ← same, absName, absName, length_cons, length_cons] at short
      exact prefix_of_length mounted'.2 begins' begins (by omega)

theorem Normal.left (normal : Normal (K ++ L)) : Normal K := fun c mem => normal c (mem_append_left L mem)

theorem Normal.right (normal : Normal (K ++ L)) : Normal L := fun c mem => normal c (mem_append_right K mem)

theorem prefix_split_join (normal : Normal cs) (normal' : Normal K) : K <+: split (join cs) ↔ K <+: cs := by
  by_cases none : cs = []
  · subst none
    constructor
    · intro first
      cases K with
      | nil => exact nil_prefix
      | cons c K => exact absurd (List.cons_prefix_cons.mp first).1 (normal' c mem_cons_self).1
    · intro first
      rw [List.prefix_nil.mp first]
      exact nil_prefix
  · rw [split_join normal none]

theorem drop_absName (normal : Normal (K ++ L)) :
    (if ((absName (K ++ L)).drop (absName K).length).head? = some slash then
      (absName (K ++ L)).drop ((absName K).length + 1) else (absName (K ++ L)).drop (absName K).length) = join L := by
  by_cases top : K = []
  · subst top
    change (if (join L).head? = some slash then (join L).drop 1 else join L) = join L
    refine if_neg fun sep => ?_
    cases L with
    | nil => simp [join] at sep
    | cons c L =>
      obtain ⟨long, clean⟩ := normal c (by simp)
      cases c with
      | nil => exact long rfl
      | cons a c =>
        obtain rfl : a = slash := by
          cases L with
          | nil => simpa [join] using sep
          | cons d L => simpa [join, intercalate_cons_cons] using sep
        simp at clean
  · by_cases last : L = []
    · subst last
      rw [append_nil, drop_length]
      rfl
    · have form : absName (K ++ L) = absName K ++ slash :: join L := by
        rw [absName, join_append top last]
        rfl
      rw [form, drop_left, head?_cons, if_pos rfl, drop_append, drop_eq_nil_of_le (by omega)]
      simp

theorem matchlen_names (normal : Normal L) : matchlen r (join L) = if L ≠ [] ∧ L <+: split r then
    (join L).length else 0 := by
  by_cases none : L = []
  · subst none
    rw [if_neg fun both => both.1 rfl]
    change matchlen r [] = 0
    rw [matchlen_eq (by simp)]
    exact ite_self 0
  · rw [matchlen_join normal none]
    exact if_congr (by simp [none]) rfl rfl

theorem relativeLen_under (normal : Normal (K ++ L)) :
    relativeLen (absName K) r (absName (K ++ L)) = if L ≠ [] ∧ L <+: split r then (join L).length else 0 := by
  have under : matchlen (absName (K ++ L)) (absName K) = (absName K).length := by
    rw [absName, matchlen_abs normal.left, if_pos ((prefix_split_join normal normal.left).mpr (prefix_append ..))]
  have rest := drop_absName normal
  rw [relativeLen, under, if_pos rfl, ← matchlen_names normal.right, ← rest]
  split <;> rfl

theorem relativeLen_outside (normal : Normal cs) (normal' : Normal K) (outside : ¬ K <+: cs) :
    relativeLen (absName K) r (absName cs) = 0 := by
  have no : matchlen (absName cs) (absName K) = 0 := by
    rw [absName, matchlen_abs normal', if_neg fun first => outside ((prefix_split_join normal normal').mp first)]
  rw [relativeLen, no, if_neg (by simp [absName])]

/-- A relative path leads to the longest mount point that continues that of the current
directory by its first components, or stays in the current directory. -/
theorem lookup_relative (regular : Regular mtab) {cur : Nat} {mount : List Path} (at' : MountedAt mtab cur mount)
    (dir : δ)
    (rel : r.head? ≠ some slash) :
    (∃ i K m rest, mtabLookup mtab dir r (some cur) = some (some (i, m.root, rest)) ∧ mtab[i]? = some m ∧
      MountedAt mtab i (mount ++ K) ∧ K ≠ [] ∧ K <+: split r ∧ parts r = K ++ parts rest ∧
      ∀ j K', MountedAt mtab j (mount ++ K') → K' ≠ [] → K' <+: split r → K' <+: K) ∨
    (mtabLookup mtab dir r (some cur) = some (some (cur, dir, r)) ∧
      ∀ j K', MountedAt mtab j (mount ++ K') → K' ≠ [] → ¬ K' <+: split r) := by
  rcases found : bestOf (relativeLen (absName mount) r) mtab 0 (some cur) 0 with ⟨b, l⟩
  have best := bestOf_spec found
  obtain ⟨⟨m₀, here₀, _, name₀⟩, normal₀⟩ := at'
  have result : mtabLookup mtab dir r (some cur) = b.bind fun best => (mtab[best]?).map fun m =>
      some (best, if best ≠ cur then m.root else dir, remainder r l) := by
    rw [mtabLookup.eq_def, if_pos rel]
    dsimp only
    rw [here₀, bind_some, name₀, bind_some, found]
  rcases best.ends with ⟨rfl, rfl⟩ | ⟨positive, i, name, rfl, named, same⟩
  · refine .inr ⟨?_, fun j K' mounted long begins => ?_⟩
    · rw [result, bind_some, here₀, map_some, if_neg (by simp), remainder, drop_zero, if_neg rel]
    · have short := best.most j _ mounted.1
      rw [relativeLen_under mounted.2, if_pos ⟨long, begins⟩] at short
      have some := join_length_lt (K := []) mounted.2.right long
      rw [nil_append] at some
      omega
  · left
    obtain ⟨cs, mounted, rfl⟩ := named.regular regular
    by_cases under : mount <+: cs
    swap
    · rw [relativeLen_outside mounted.2 normal₀ under] at same
      omega
    obtain ⟨K, rfl⟩ := under
    rw [relativeLen_under mounted.2] at same
    split at same
    swap
    · omega
    next both =>
    obtain ⟨m, here, _⟩ := named
    have other : i ≠ cur := by
      rintro rfl
      have equal := mounted.same ⟨⟨m₀, here₀, ‹_›, name₀⟩, normal₀⟩
      exact both.1 (by simpa using equal)
    refine ⟨i, K, m, remainder r l, ?_, here, mounted, both.1, both.2, ?_, fun j K' mounted' long begins => ?_⟩
    · rw [result, bind_some, Nat.zero_add, here, map_some, if_pos other]
    · rw [← same]
      exact parts_remainder mounted.2.right both.1 both.2
    · have short := best.most j _ mounted'.1
      rw [relativeLen_under mounted'.2, if_pos ⟨long, begins⟩, ← same] at short
      exact prefix_of_length mounted'.2.right begins both.2 short

end Table

/-- The path `r` under the directory with the given components, as an absolute path. -/
def under (cs : List Path) (r : Path) : Path := if cs = [] then slash :: r else absName cs ++ slash :: r

theorem under_eq (normal : Normal cs) (r : Path) : ∃ s, under cs r = slash :: s ∧ split s = cs ++ split r ∧
    parts (slash :: s) = cs ++ parts r := by
  rw [under]
  split
  · next none => exact ⟨r, rfl, by rw [none]; rfl, by rw [none, parts_slash]; rfl⟩
  · next some =>
    refine ⟨join cs ++ slash :: r, rfl, ?_, ?_⟩
    · rw [split, splitOn_append_cons_self, ← split, split_join normal some]
      rfl
    · rw [parts_slash, parts_append normal some]

section Relative
variable {mtab : List (MtabEntry (List Path))} {cur : Nat} {mount dir : List Path}

/-- A relative path and the absolute one lead to the same mount point and, below its
root, by the same names. A directory is its path from the root of its file system. -/
def SameObject (mtab : List (MtabEntry (List Path))) (cur : Nat) (mount dir : List Path) (r : Path) : Prop :=
  ∃ i d n d' n', mtabLookup mtab dir r (some cur) = some (some (i, d, n)) ∧
    mtabLookup mtab dir (under (mount ++ dir) r) (some cur) = some (some (i, d', n')) ∧ d ++ parts n = d' ++ parts n'

/-- The current directory is the root of its file system, or no mount point continues by
the first components of the path either that root or the current directory. -/
def Plain (mtab : List (MtabEntry (List Path))) (mount dir : List Path) (r : Path) : Prop :=
  dir = [] ∨ ∀ i K, K ≠ [] → K <+: split r → ¬ MountedAt mtab i (mount ++ K) ∧ ¬ MountedAt mtab i (mount ++ dir ++ K)

theorem sameObject_iff (regular : Regular mtab) (roots : ∀ m ∈ mtab, m.root = []) (at' : MountedAt mtab cur mount)
    (normal : Normal dir) (owner : ∀ i cs, MountedAt mtab i cs → cs <+: mount ++ dir → cs <+: mount)
    (rel : r.head? ≠ some slash) : SameObject mtab cur mount dir r ↔ Plain mtab mount dir r := by
  have whole : Normal (mount ++ dir) := fun c mem => (mem_append.mp mem).elim (at'.2 c) (normal c)
  obtain ⟨s, form, splits, names⟩ := under_eq whole r
  have rooted : ∀ {i : Nat} {m : MtabEntry (List Path)}, mtab[i]? = some m → m.root = [] := fun here =>
    roots _ (mem_of_getElem? here)
  -- where the absolute path leads
  obtain ⟨i, J, abs, mounted, begins, left, longest⟩ : ∃ i J,
    (∃ n, mtabLookup mtab dir (under (mount ++ dir) r) (some cur) =
      some (some (i, [], n)) ∧ dir ++ parts r = J ++ parts n) ∧ MountedAt mtab i (mount ++ J) ∧ J <+: dir ++ split r ∧
      (J = [] ∨ dir <+: J) ∧ ∀ j J', MountedAt mtab j (mount ++ J') → J' <+: dir ++ split r → J' <+: J := by
    rw [form]
    rcases lookup_absolute regular dir s (some cur) with ⟨i, cs, m, rest, run, here, mounted, begins, parted,
      longest⟩ | ⟨_, none⟩
    · rw [splits, append_assoc] at begins longest
      obtain ⟨J, rfl⟩ := longest cur mount at' (prefix_append ..)
      refine ⟨i, J, ⟨rest, by rw [run, rooted here], ?_⟩, mounted, (prefix_append_right_inj _).mp begins, ?_,
        fun j J' mounted' begins' => ?_⟩
      · rw [names, append_assoc, append_assoc] at parted
        exact append_cancel_left parted
      · rcases prefix_or_prefix_of_prefix ((prefix_append_right_inj _).mp begins) (prefix_append dir (split r)) with
          short | long
        · left
          have inside := owner i _ mounted ((prefix_append_right_inj _).mpr short)
          have le := inside.length_le
          rw [length_append] at le
          exact length_eq_zero_iff.mp (by omega)
        · exact .inr long
      · exact (prefix_append_right_inj _).mp (longest j _ mounted' ((prefix_append_right_inj _).mpr begins'))
    · rw [splits, append_assoc] at none
      exact absurd (prefix_append ..) (none cur mount at')
  obtain ⟨n', abs, parted'⟩ := abs
  rcases lookup_relative regular at' dir rel with ⟨k, K, m, rest, run, here, mountedK, long, beginsK, partedK,
    longestK⟩ | ⟨run, none⟩
  · rw [rooted here] at run
    constructor
    · rintro ⟨i', d, n, d', n₁, one, two, equal⟩
      rw [run] at one
      rw [abs] at two
      obtain ⟨rfl, rfl, rfl⟩ : k = i' ∧ [] = d ∧ rest = n := by simpa using one
      obtain ⟨rfl, rfl, rfl⟩ : i = k ∧ [] = d' ∧ n' = n₁ := by simpa using two
      have same : K = J := append_cancel_left (mountedK.same mounted)
      rw [partedK, ← same, show parts rest = parts n' from equal, ← append_assoc] at parted'
      have lengths := congrArg List.length (append_cancel_right parted')
      rw [length_append] at lengths
      exact .inl (length_eq_zero_iff.mp (by omega))
    · rintro (rfl | clear)
      · rw [nil_append] at begins parted' longest
        have first := longest k K mountedK beginsK
        have notNil : J ≠ [] := fun none => long (List.prefix_nil.mp (none ▸ first))
        have second := longestK i J mounted notNil begins
        obtain rfl : K = J := first.eq_of_length (Nat.le_antisymm first.length_le second.length_le)
        obtain rfl := mounted.unique regular mountedK
        exact ⟨i, [], rest, [], n', run, abs, append_cancel_left (partedK.symm.trans parted')⟩
      · exact absurd mountedK (clear k K long beginsK).1
  · constructor
    · rintro ⟨i', d, n, d', n₁, one, two, equal⟩
      rw [run] at one
      rw [abs] at two
      obtain ⟨rfl, rfl, rfl⟩ : cur = i' ∧ dir = d ∧ r = n := by simpa using one
      obtain ⟨rfl, rfl, rfl⟩ : i = cur ∧ [] = d' ∧ n' = n₁ := by simpa using two
      obtain rfl : J = [] := by simpa using mounted.same at'
      refine .inr fun j K long beginsK => ⟨fun mountedK => none j K mountedK long beginsK, fun mountedK => ?_⟩
      rw [append_assoc] at mountedK
      have inside := longest j (dir ++ K) mountedK ((prefix_append_right_inj _).mpr beginsK)
      exact long (append_eq_nil_iff.mp (List.prefix_nil.mp inside)).2
    · intro plain
      obtain rfl : J = [] := by
        rcases left with nil | ⟨K, rfl⟩
        · exact nil
        by_cases nil : K = []
        · rw [nil, append_nil] at mounted ⊢
          have inside := (owner i _ mounted (prefix_refl _)).length_le
          rw [length_append] at inside
          exact length_eq_zero_iff.mp (by omega)
        · have beginsK := (prefix_append_right_inj _).mp begins
          rcases plain with rfl | clear
          · exact absurd beginsK (none i K (by simpa using mounted) nil)
          · rw [← append_assoc] at mounted
            exact absurd mounted (clear i K nil beginsK).2
      rw [append_nil] at mounted
      obtain rfl := mounted.unique regular at'
      exact ⟨i, dir, r, [], n', run, abs, parted'⟩

/-- An absolute path is resolved to the longest mount point that is a prefix of it; a relative
path is resolved like the absolute one exactly if no mount point interferes. -/
theorem mtab_resolution (regular : Regular mtab) (roots : ∀ m ∈ mtab, m.root = []) :
    (∀ (s : Path) (dir : List Path) (mte : Option Nat),
      (∃ i cs m rest, mtabLookup mtab dir (slash :: s) mte = some (some (i, m.root, rest)) ∧ mtab[i]? = some m ∧
        MountedAt mtab i cs ∧ cs <+: split s ∧ parts (slash :: s) = cs ++ parts rest ∧
        ∀ j cs', MountedAt mtab j cs' → cs' <+: split s → cs' <+: cs) ∨
      (mtabLookup mtab dir (slash :: s) mte = some none ∧ ∀ j cs', MountedAt mtab j cs' → ¬ cs' <+: split s)) ∧
    ∀ (cur : Nat) (mount dir : List Path) (r : Path), MountedAt mtab cur mount → Normal dir →
      (∀ i cs, MountedAt mtab i cs → cs <+: mount ++ dir → cs <+: mount) → r.head? ≠ some slash →
        (SameObject mtab cur mount dir r ↔ Plain mtab mount dir r) :=
  ⟨fun s dir mte => lookup_absolute regular dir s mte,
    fun _ _ _ _ at' normal owner rel => sameObject_iff regular roots at' normal owner rel⟩

/-- File systems at `/` and at `/x`. -/
def twoMounts : List (MtabEntry (List Path)) := [⟨some [slash], true, []⟩, ⟨some [slash, 120], true, []⟩]

theorem twoMounts_named {i : Nat} {name : Path} (named : Named twoMounts i name) :
    (i = 0 ∧ name = absName []) ∨ (i = 1 ∧ name = absName [[120]]) := by
  obtain ⟨m, here, _, at'⟩ := named
  match i, here with
  | 0, here =>
    obtain rfl := some.inj here
    exact .inl ⟨rfl, (some.inj at').symm⟩
  | 1, here =>
    obtain rfl := some.inj here
    exact .inr ⟨rfl, (some.inj at').symm⟩
  | i + 2, here => simp [twoMounts] at here

theorem twoMounts_regular : Regular twoMounts ∧ ∀ m ∈ twoMounts, m.root = [] := by
  have one : Normal [[120]] := by simp [Normal, slash]
  refine ⟨⟨fun i name named => ?_, fun i j name named named' => ?_⟩, by simp [twoMounts]⟩
  · rcases twoMounts_named named with ⟨_, rfl⟩ | ⟨_, rfl⟩
    · exact ⟨[], by simp [Normal], rfl⟩
    · exact ⟨[[120]], one, rfl⟩
  · rcases twoMounts_named named with ⟨rfl, rfl⟩ | ⟨rfl, rfl⟩ <;> rcases twoMounts_named named' with ⟨rfl,
    bad⟩ | ⟨rfl, bad⟩
    · rfl
    · simp [absName, join] at bad
    · simp [absName, join] at bad
    · rfl

theorem twoMounts_root : MountedAt twoMounts 0 [] := ⟨⟨_, rfl, rfl, rfl⟩, by simp [Normal]⟩

/-- From the root, `x/f` is the file in the other file system. -/
theorem mtab_resolution_crossing : SameObject twoMounts 0 [] [] [120, slash, 102] :=
  ((mtab_resolution twoMounts_regular.1 twoMounts_regular.2).2 0 [] [] _ twoMounts_root (by simp [Normal])
    (fun _ _ _ below => below) (by decide)).mpr (.inl rfl)

/-- In the directory `/s`, the path `x/f` leads to the file system at `/x`, although nothing is mounted at `/s/x`. -/
theorem relative_crosses_wrongly : ¬ ∀ (mtab : List (MtabEntry (List Path))) (cur : Nat) (mount dir : List Path)
    (r : Path),
    Regular mtab → (∀ m ∈ mtab, m.root = []) → MountedAt mtab cur mount → Normal dir →
      (∀ i cs, MountedAt mtab i cs → cs <+: mount ++ dir → cs <+: mount) → r.head? ≠ some slash →
        SameObject mtab cur mount dir r := by
  intro claim
  have owner : ∀ i cs, MountedAt twoMounts i cs → cs <+: [] ++ [[115]] → cs <+: [] := by
    rintro i cs ⟨named, normal⟩ below
    rcases twoMounts_named named with ⟨_, same⟩ | ⟨_, same⟩
    · have top : cs = [] := absName_inj normal (by simp [Normal]) same
      simp only [top, prefix_rfl]
    · rw [absName_inj normal (by simp [Normal, slash]) same] at below
      exact absurd below (by decide)
  obtain ⟨i, d, n, d', n', one, two, _⟩ :=
    claim twoMounts 0 [] [[115]] [120, slash, 102] twoMounts_regular.1 twoMounts_regular.2
    twoMounts_root (by simp [Normal, slash]) owner (by decide)
  have relative : mtabLookup twoMounts [[115]] [120, slash, 102] (some 0) = some (some (1, [], [102])) :=
    by decide +kernel
  have absolute : mtabLookup twoMounts [[115]] (under ([] ++ [[115]]) [120, slash, 102]) (some 0) =
      some (some (0, [], [115, slash, 120, slash, 102])) := by decide +kernel
  rw [relative] at one
  rw [absolute] at two
  obtain ⟨rfl, _⟩ : 1 = i ∧ _ := by simpa using one
  simp at two

end Relative

end Ecos.Fileio
