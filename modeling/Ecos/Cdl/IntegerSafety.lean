import Ecos.Cdl.Integer

namespace Ecos.Cdl.Integer
open List Option Nat Int

theorem wrap_of_lt {n : Int} (low : -2 ^ 63 ≤ n) (high : n < 2 ^ 63) : wrap n = n := bmod_eq_of_le low high

theorem wrap_bounds (n : Int) : -2 ^ 63 ≤ wrap n ∧ wrap n < 2 ^ 63 :=
  ⟨le_bmod (by decide), bmod_lt (by decide)⟩

theorem wrap_step (base n d : Int) : wrap (wrap (base * wrap n) + d) = wrap (base * n + d) := by
  rw [wrap, wrap, wrap, wrap, bmod_add_bmod, ← bmod_add_bmod, mul_bmod_bmod, bmod_add_bmod]

theorem number_append (base : Int) (digits : List Char) (c : Char) :
    number base (digits ++ [c]) = base * number base digits + digitValue c := by
  simp [number]

theorem accumulate_eq (base : Int) (isDigit : Char → Bool) (front rest : List Char) :
    accumulate base isDigit (wrap (number base front)) rest =
      if ∀ k < (rest.takeWhile isDigit).length, wrap (number base (front ++ (rest.takeWhile isDigit).take k)) ≤
          wrap (number base (front ++ (rest.takeWhile isDigit).take (k + 1))) then
        some (wrap (number base (front ++ rest.takeWhile isDigit)), rest.dropWhile isDigit)
      else none := by
  induction rest generalizing front with
  | nil => simp [accumulate]
  | cons c rest ih =>
    rw [accumulate]
    cases digit : isDigit c with
    | false => simp [digit]
    | true =>
      have next := ih (front ++ [c])
      rw [number_append] at next
      simp only [if_true, wrap_step, takeWhile_cons, dropWhile_cons, digit, next, append_assoc,
        singleton_append, length_cons]
      by_cases drops : wrap (base * number base front + digitValue c) < wrap (number base front)
      · rw [if_pos drops, if_neg]
        intro never
        have first := never 0 (by omega)
        simp only [take_zero, append_nil, zero_add, take_succ_cons, number_append] at first
        exact absurd drops (not_lt.mpr first)
      · rw [if_neg drops]
        refine if_congr ⟨fun never k inside => ?_, fun never k inside => ?_⟩ rfl rfl
        · cases k with
          | zero =>
            simp only [take_zero, append_nil, zero_add, take_succ_cons, number_append]
            exact not_lt.mp drops
          | succ k => exact never k (by omega)
        · exact never (k + 1) (by omega)

theorem Scheme.NeverDrops.le {scheme : Scheme} (never : scheme.NeverDrops) {k : Nat} (inside : k ≤ scheme.digits.length) :
    0 ≤ wrap (Integer.number scheme.base (scheme.digits.take k)) := by
  induction k with
  | zero => exact le_rfl
  | succ k ih => exact (ih (by omega)).trans (never k (by omega))

theorem Scheme.NeverDrops.nonneg {scheme : Scheme} (never : scheme.NeverDrops) : 0 ≤ wrap scheme.number := by
  have last := never.le le_rfl
  rwa [take_length] at last

theorem accumulate_finish (negative : Bool) (scheme : Scheme) :
    (accumulate scheme.base scheme.isDigit 0 scheme.digits).bind (finish negative) =
      if scheme.AllDigits ∧ scheme.NeverDrops then
        some (if negative then -wrap scheme.number else wrap scheme.number) else none := by
  have read := accumulate_eq scheme.base scheme.isDigit [] scheme.digits
  by_cases all : scheme.AllDigits
  · rw [takeWhile_eq_self_iff.mpr all, dropWhile_eq_nil_iff.mpr all] at read
    change accumulate scheme.base scheme.isDigit 0 scheme.digits =
      if scheme.NeverDrops then some (wrap scheme.number, []) else none at read
    rw [read]
    by_cases never : scheme.NeverDrops
    · have positive := never.nonneg
      have bounds := wrap_bounds scheme.number
      rw [if_pos never, if_pos ⟨all, never⟩, bind_some]
      cases negative with
      | false => rfl
      | true =>
        change (if 0 < wrap (0 - wrap scheme.number) then none else some (wrap (0 - wrap scheme.number))) = _
        rw [zero_sub, wrap_of_lt (by omega) (by omega), if_neg (by omega)]
        rfl
    · rw [if_neg never, if_neg (fun both => never both.2), bind_none]
  · rw [if_neg (fun both => all both.1)]
    have rest : scheme.digits.dropWhile scheme.isDigit ≠ [] := fun none => all (dropWhile_eq_nil_iff.mp none)
    change accumulate scheme.base scheme.isDigit 0 scheme.digits = _ at read
    rw [read]
    split_ifs
    · rw [bind_some, finish, if_pos rest]
    · rw [bind_none]

theorem convert_eq (negative : Bool) (ptr : List Char) : convert negative ptr = if (scheme ptr).Accepted then
      some (if negative then -wrap (scheme ptr).number else wrap (scheme ptr).number) else none := by
  have read (numeral : Scheme) (digits : numeral.base = 16 → numeral.digits ≠ []) :
      (accumulate numeral.base numeral.isDigit 0 numeral.digits).bind (finish negative) =
        if numeral.Accepted then some (if negative then -wrap numeral.number else wrap numeral.number) else none := by
    rw [accumulate_finish]
    exact if_congr ⟨fun both => ⟨both.1, both.2, digits⟩, fun all => ⟨all.1, all.2.1⟩⟩ rfl rfl
  rw [convert.eq_def]
  split
  · have zero : (scheme ['0']).Accepted := by
      refine ⟨forall_mem_singleton.mpr rfl, fun k less => ?_, nofun⟩
      obtain rfl : k = 0 := lt_one_iff.mp less
      decide
    rw [if_pos zero]
    cases negative <;> rfl
  · rename_i c rest
    by_cases hex : c = 'x' ∨ c = 'X'
    · have is : scheme ('0' :: c :: rest) = ⟨16, isxdigit, rest⟩ := if_pos hex
      rw [if_pos hex, is]
      cases rest with
      | nil => exact (if_neg fun accepted => accepted.2.2 rfl rfl).symm
      | cons d rest =>
        by_cases digit : isxdigit d = true
        · exact (if_pos digit).trans (read ⟨16, isxdigit, d :: rest⟩ fun _ => cons_ne_nil _ _)
        · exact (if_neg digit).trans (if_neg fun accepted => digit (accepted.1 d (mem_cons_self ..))).symm
    · rw [if_neg hex]
      by_cases octal : isodigit c = true
      · have is : scheme ('0' :: c :: rest) = ⟨8, isodigit, c :: rest⟩ := (if_neg hex).trans (if_pos octal)
        rw [if_pos octal, is]
        exact read ⟨8, isodigit, c :: rest⟩ (by simp)
      · have is : scheme ('0' :: c :: rest) = ⟨10, isdigit, '0' :: c :: rest⟩ := (if_neg hex).trans (if_neg octal)
        rw [if_neg octal, is]
        exact read ⟨10, isdigit, '0' :: c :: rest⟩ (by simp)
  · rename_i none
    have is : scheme ptr = ⟨10, isdigit, ptr⟩ := by
      unfold scheme
      split
      · exact absurd rfl (none _ _)
      · rfl
    rw [is]
    exact read ⟨10, isdigit, ptr⟩ (by simp)

theorem Scheme.AllDigits.head {numeral : List Char} (all : (scheme numeral).AllDigits)
    (digits : (scheme numeral).digits ≠ []) :
    (∃ c rest, numeral = c :: rest ∧ isdigit c = true) ∧ '\x00' ∉ numeral := by
  have plain {isDigit : Char → Bool} {l : List Char} (none : isDigit '\x00' = false) (all : ∀ c ∈ l, isDigit c = true) :
      '\x00' ∉ l := fun inside => by simp [all _ inside] at none
  unfold scheme at all digits
  split at all
  · rename_i c rest
    refine ⟨⟨'0', c :: rest, rfl, rfl⟩, ?_⟩
    split_ifs at all with hex octal
    · have others := plain (by rfl) all
      rcases hex with rfl | rfl <;> simpa using others
    · simpa using plain (by rfl) all
    · exact plain (by rfl) all
  · rename_i none
    split at digits
    · exact absurd rfl (none _ _)
    · obtain ⟨c, rest, rfl⟩ := exists_cons_of_ne_nil digits
      exact ⟨⟨c, rest, rfl, all c (mem_cons_self ..)⟩, plain (by rfl) all⟩

theorem read_eq {blanks sign numeral : List Char} (spaces : ∀ c ∈ blanks, isspace c = true)
    (signed : sign = [] ∨ sign = ['+'] ∨ sign = ['-']) (digit : ∃ c rest, numeral = c :: rest ∧ isdigit c = true)
    (none : '\x00' ∉ numeral) : '\x00' ∉ blanks ++ (sign ++ numeral) ∧
      read (blanks ++ (sign ++ numeral)) = ⟨sign = ['+'], sign = ['-'], numeral⟩ := by
  obtain ⟨c, rest, rfl, digit⟩ := digit
  have noSpace : isspace c = false := by
    unfold isdigit isspace at *
    simp only [decide_eq_true_eq, decide_eq_false_iff_not] at *
    omega
  have noSign : c ≠ '+' ∧ c ≠ '-' := by
    constructor <;> rintro rfl <;> cases digit
  have noTerminator : '\x00' ∉ blanks ++ (sign ++ c :: rest) := by
    have blank : '\x00' ∉ blanks := fun inside => absurd (spaces _ inside) (by decide)
    rcases signed with rfl | rfl | rfl <;> simpa [blank] using none
  have whole : (blanks ++ (sign ++ c :: rest)).takeWhile (· ≠ '\x00') = blanks ++ (sign ++ c :: rest) := by
    refine takeWhile_eq_self_iff.mpr fun d inside => ?_
    simpa using fun is : d = '\x00' => noTerminator (is ▸ inside)
  refine ⟨noTerminator, ?_⟩
  rw [read, whole, dropWhile_append_of_pos spaces]
  rcases signed with rfl | rfl | rfl
  · simp [noSpace, noSign]
  · have plus : isspace '+' = false := rfl
    simp [plus, noSign]
  · have minus : isspace '-' = false := rfl
    simp [minus]

theorem denotes_iff (s : List Char) (v : Int) : Denotes s v ↔ Formed s ∧ (scheme (read s).ptr).AllDigits ∧
    v = (if (read s).seenMinus then -(scheme (read s).ptr).number else (scheme (read s).ptr).number) ∧
      -2 ^ 63 ≤ v ∧ v < 2 ^ 63 := by
  constructor
  · rintro ⟨blanks, sign, numeral, rfl, spaces, signed, digits, all, value, bounds⟩
    obtain ⟨digit, plain⟩ := all.head digits
    obtain ⟨none, eq⟩ := read_eq spaces signed digit plain
    unfold Formed
    rw [eq]
    refine ⟨⟨none, ?_, digits⟩, all, ?_, bounds⟩
    · rcases signed with rfl | rfl | rfl <;> simp
    · simpa using value
  · rintro ⟨⟨none, single, digits⟩, all, value, bounds⟩
    have whole : s.takeWhile (· ≠ '\x00') = s := takeWhile_eq_self_iff.mpr fun d inside => by
      simpa using fun is : d = '\x00' => none (is ▸ inside)
    have parts := takeWhile_append_dropWhile (p := isspace) (l := s)
    have spaces : ∀ c ∈ s.takeWhile isspace, isspace c = true := fun c inside => mem_takeWhile_imp inside
    rw [read, whole] at single digits all value
    rw [← parts]
    generalize s.takeWhile isspace = blanks at spaces
    generalize s.dropWhile isspace = ptr at single digits all value
    by_cases plus : ptr.head? = some '+'
    · obtain ⟨rest, rfl⟩ := head?_eq_some_iff.mp plus
      by_cases minus : rest.head? = some '-'
      · exact absurd (by simp [minus]) single
      · simp only [head?_cons, decide_true, if_true, tail_cons, minus, decide_false, Bool.false_eq_true,
          if_false] at digits all value
        exact ⟨blanks, ['+'], rest, rfl, spaces, by simp, digits, all, by simpa using value, bounds⟩
    · simp only [plus, decide_false, Bool.false_eq_true, if_false] at digits all value
      by_cases minus : ptr.head? = some '-'
      · obtain ⟨rest, rfl⟩ := head?_eq_some_iff.mp minus
        exact ⟨blanks, ['-'], rest, rfl, spaces, by simp, digits, all, by simpa using value, bounds⟩
      · simp only [minus, decide_false, Bool.false_eq_true, if_false] at digits all value
        exact ⟨blanks, [], ptr, rfl, spaces, by simp, digits, all, by simpa using value, bounds⟩

theorem digitValue_nonneg {c : Char} (digit : isxdigit c = true) : 0 ≤ digitValue c := by
  unfold isxdigit at digit
  unfold digitValue
  cases decimal : isdigit c with
  | true =>
    unfold isdigit at decimal
    simp only [decide_eq_true_eq] at decimal
    rw [if_pos rfl]
    omega
  | false =>
    simp only [decimal, Bool.false_eq_true, false_or, decide_eq_true_eq] at digit
    rw [if_neg (by simp)]
    split_ifs <;> omega

theorem scheme_spec (numeral : List Char) : 1 ≤ (scheme numeral).base ∧
    ∀ c, (scheme numeral).isDigit c = true → isxdigit c = true := by
  have decimal (c : Char) (digit : isdigit c = true) : isxdigit c = true := by simp [isxdigit, digit]
  unfold scheme
  split
  · split_ifs
    · exact ⟨by simp, fun c digit => digit⟩
    · refine ⟨by simp, fun c digit => decimal c ?_⟩
      simp only [isodigit, isdigit, decide_eq_true_eq] at digit ⊢
      omega
    · exact ⟨by simp, decimal⟩
  · exact ⟨by simp, decimal⟩

theorem number_take_le {base : Int} {digits : List Char} (large : 1 ≤ base) (all : ∀ c ∈ digits, isxdigit c = true) (k : Nat) :
    0 ≤ number base (digits.take k) ∧ number base (digits.take k) ≤ number base (digits.take (k + 1)) := by
  have step (k : Nat) (positive : 0 ≤ number base (digits.take k)) :
      number base (digits.take k) ≤ number base (digits.take (k + 1)) := by
    rcases lt_or_ge k digits.length with inside | beyond
    · have digit := digitValue_nonneg (all _ (getElem_mem inside))
      rw [take_succ_eq_append_getElem inside, number_append]
      nlinarith
    · rw [take_of_length_le beyond, take_of_length_le (by omega)]
  induction k with
  | zero => exact ⟨le_rfl, step 0 le_rfl⟩
  | succ k ih => exact ⟨ih.1.trans ih.2, step _ (ih.1.trans ih.2)⟩

theorem number_take_mono {base : Int} {digits : List Char} (large : 1 ≤ base) (all : ∀ c ∈ digits, isxdigit c = true) :
    Monotone fun k => number base (digits.take k) := monotone_nat_of_le_succ fun k => (number_take_le large all k).2

theorem Scheme.AllDigits.neverDrops {numeral : List Char} (all : (scheme numeral).AllDigits)
    (small : (scheme numeral).number < 2 ^ 63) : (scheme numeral).NeverDrops := by
  obtain ⟨large, digits⟩ := scheme_spec numeral
  intro k inside
  have le := number_take_le large (fun c mem => digits c (all c mem)) k
  have most := number_take_mono large (fun c mem => digits c (all c mem)) (succ_le_of_lt inside)
  simp only [take_length, succ_eq_add_one] at most
  change _ ≤ (scheme numeral).number at most
  rw [wrap_of_lt (by omega) (by omega), wrap_of_lt (by omega) (by omega)]
  exact le.2

theorem Scheme.AllDigits.number_nonneg {numeral : List Char} (all : (scheme numeral).AllDigits) :
    0 ≤ (scheme numeral).number := by
  obtain ⟨large, digits⟩ := scheme_spec numeral
  have le := (number_take_le large (fun c mem => digits c (all c mem)) (scheme numeral).digits.length).1
  rwa [take_length] at le

theorem recognized_iff (s : List Char) : (∀ v, stringToInteger s = some v ↔ Denotes s v) ↔ Recognized s := by
  have denotes := denotes_iff s
  have read := convert_eq (read s).seenMinus (read s).ptr
  have positive := @Scheme.AllDigits.number_nonneg (Integer.read s).ptr
  have small := @Scheme.AllDigits.neverDrops (Integer.read s).ptr
  change stringToInteger s = _ at read
  have formed : Formed s → (scheme (Integer.read s).ptr).digits ≠ [] := fun formed => formed.2.2
  simp only [denotes, read, Recognized]
  generalize scheme (Integer.read s).ptr = n at *
  generalize (Integer.read s).seenMinus = minus
  by_cases all : n.AllDigits
  · simp only [all, true_imp_iff, true_and]
    specialize positive all
    by_cases good : Formed s
    · have accepted : n.Accepted ↔ n.NeverDrops := ⟨fun is => is.2.1, fun never => ⟨all, never, fun _ => formed good⟩⟩
      simp only [good, true_and, not_true_eq_false, false_and, or_false, accepted]
      by_cases fits : n.number < 2 ^ 63
      · rw [if_pos (small all fits), wrap_of_lt (by omega) fits]
        simp only [fits, true_or, iff_true, some.injEq]
        intro v
        cases minus <;> simp only [if_true, Bool.false_eq_true, if_false] <;> omega
      · simp only [fits, false_or]
        by_cases never : n.NeverDrops
        · have least := never.nonneg
          simp only [never, if_true, not_true_eq_false, false_and, iff_false]
          intro same
          obtain ⟨value, low, high⟩ := (same _).mp rfl
          cases minus with
          | false => simp only [Bool.false_eq_true, if_false] at value high; omega
          | true =>
            simp only [if_true] at value low
            have top : n.number = 2 ^ 63 := by omega
            rw [top] at least
            exact absurd least (by decide)
        · simp only [never, if_false, not_false_eq_true, true_and, reduceCtorEq, false_iff]
          constructor
          · rintro none ⟨rfl, top⟩
            exact none (-2 ^ 63) (by simp [top])
          · rintro other v ⟨rfl, low, high⟩
            cases minus with
            | false => simp only [Bool.false_eq_true, if_false] at high; omega
            | true => exact other ⟨rfl, by simp only [if_true] at low; omega⟩
    · have accepted : n.Accepted ↔ n.NeverDrops ∧ (n.base = 16 → n.digits ≠ []) := ⟨fun is => is.2, fun is => ⟨all, is⟩⟩
      simp only [good, false_and, false_or, not_false_eq_true, true_and, iff_false, accepted]
      constructor
      · intro refused
        by_contra contrary
        push Not at contrary
        exact refused _ (if_pos ⟨contrary.2, contrary.1⟩)
      · intro refused v
        rw [if_neg (by tauto)]
        simp
  · have refused : ¬ n.Accepted := fun accepted => all accepted.1
    simp [all, refused]

theorem read_numeral {numeral : List Char} (minus : Bool) (digits : (scheme numeral).digits ≠ [])
    (all : (scheme numeral).AllDigits) (small : (scheme numeral).number < 2 ^ 63) :
    stringToInteger (if minus then '-' :: numeral else numeral) =
      some (if minus then -(scheme numeral).number else (scheme numeral).number) := by
  obtain ⟨digit, plain⟩ := all.head digits
  have positive := all.number_nonneg
  have eq := (@read_eq [] (if minus then ['-'] else []) _ (by simp) (by cases minus <;> simp) digit
    plain).2
  have whole : (if minus then '-' :: numeral else numeral) = [] ++ ((if minus then ['-'] else []) ++ numeral) := by
    cases minus <;> rfl
  rw [whole, stringToInteger, eq, convert_eq, if_pos ⟨all, all.neverDrops small, fun _ => digits⟩,
    wrap_of_lt (by omega) small]
  cases minus <;> rfl

theorem put_eq {buf : List Char} (c : Char) (room : buf.length < 23) : put c buf = some (c :: buf) := if_pos room

theorem digit_spec {d : Int} (low : 0 ≤ d) (high : d < 10) :
    (Char.ofNat (48 + d.toNat)).toNat = 48 + d.toNat ∧ digitValue (Char.ofNat (48 + d.toNat)) = d ∧
      (Char.ofNat (48 + d.toNat) = '0' → d = 0) := by
  interval_cases d <;> decide

theorem hexDigit_spec {d : Int} (low : 0 ≤ d) (high : d < 16) :
    isxdigit (hexDigit d) = true ∧ digitValue (hexDigit d) = d := by
  interval_cases d <;> decide

theorem putHex_spec (n : Nat) (v : Int) (buf : List Char) (room : buf.length + n ≤ 23) :
    ∃ ds, putHex n v buf = some (v / 16 ^ n, ds ++ buf) ∧ ds.length = n ∧ (∀ c ∈ ds, isxdigit c = true) ∧
      number 16 ds = v % 16 ^ n := by
  induction n generalizing v buf with
  | zero => exact ⟨[], by simp [putHex], rfl, by simp, by simp [number]⟩
  | succ n ih =>
    obtain ⟨hex, value⟩ := hexDigit_spec (emod_nonneg v (by decide : (16 : Int) ≠ 0))
      (emod_lt_of_pos v (by decide))
    obtain ⟨ds, eq, length, all, number⟩ := ih (v / 16) (hexDigit (v % 16) :: buf) (by simp only [length_cons]; omega)
    have parts : v / 16 / 16 ^ n = v / 16 ^ (n + 1) := by rw [ediv_ediv_of_nonneg (by decide), pow_succ, mul_comm]
    refine ⟨ds ++ [hexDigit (v % 16)], ?_, by simp [length], ?_, ?_⟩
    · rw [putHex, put_eq _ (by omega), bind_some, eq, parts]
      simp
    · intro c mem
      rcases mem_append.mp mem with mem | mem
      · exact all c mem
      · rw [mem_singleton.mp mem, hex]
    · rw [number_append, number, value, emod_def (v / 16), parts, emod_def v 16, emod_def v (16 ^ (n + 1)), pow_succ]
      ring

theorem putDigits_spec {base : Int} (low : 2 ≤ base) (high : base ≤ 10) (k fuel : Nat) (v : Int) (buf : List Char)
    (fits : v < base ^ k) (enough : k ≤ fuel) (room : buf.length + k ≤ 23) (positive : 0 ≤ v) :
    ∃ ds, putDigits base fuel v buf = some (ds ++ buf) ∧ ds.length ≤ k ∧ number base ds = v ∧
      (∀ c ∈ ds, 48 ≤ c.toNat ∧ (c.toNat : Int) < 48 + base) ∧ (v = 0 → ds = []) ∧
      (0 < v → ∃ c rest, ds = c :: rest ∧ c ≠ '0') := by
  induction k generalizing fuel v buf with
  | zero =>
    have zero : v = 0 := by simp at fits; omega
    subst zero
    exact ⟨[], by cases fuel <;> rfl, le_rfl, rfl, by simp, by simp, by simp⟩
  | succ k ih =>
    obtain ⟨fuel, rfl⟩ := exists_eq_succ_of_ne_zero (by omega : fuel ≠ 0)
    rw [putDigits]
    split_ifs with more
    · have rest : v / base < base ^ k := Int.ediv_lt_of_lt_mul (by omega) (by rwa [pow_succ] at fits)
      have least := ediv_nonneg positive (by omega : 0 ≤ base)
      obtain ⟨least', most⟩ : 0 ≤ v % base ∧ v % base < base :=
        ⟨emod_nonneg v (by omega), emod_lt_of_pos v (by omega)⟩
      obtain ⟨code, value, zero⟩ := digit_spec least' (by omega)
      obtain ⟨ds, eq, length, number, all, none, head⟩ := ih fuel (v / base)
        (Char.ofNat (48 + (v % base).toNat) :: buf) rest (by omega) (by simp only [length_cons]; omega) least
      refine ⟨ds ++ [Char.ofNat (48 + (v % base).toNat)], ?_, by simpa using length, ?_, ?_, by omega, fun _ => ?_⟩
      · rw [put_eq _ (by omega), bind_some, eq]
        simp
      · rw [number_append, number, value, mul_ediv_add_emod]
      · intro c mem
        rcases mem_append.mp mem with mem | mem
        · exact all c mem
        · rw [mem_singleton.mp mem, code]
          omega
      · rcases least.eq_or_lt with last | more'
        · rw [none last.symm]
          refine ⟨_, [], rfl, fun is => ?_⟩
          have whole := mul_ediv_add_emod v base
          rw [← last, zero is] at whole
          omega
        · obtain ⟨c, rest, rfl, other⟩ := head more'
          exact ⟨c, _, rfl, other⟩
    · have zero : v = 0 := by omega
      subst zero
      exact ⟨[], rfl, by simp, rfl, by simp, by simp, by simp⟩

theorem nonneg_of_read {s : List Char} {v : Int} (plain : (read s).seenMinus = false)
    (result : stringToInteger s = some v) : 0 ≤ v := by
  rw [stringToInteger, convert_eq, plain] at result
  by_cases accepted : (scheme (read s).ptr).Accepted
  · rw [if_pos accepted] at result
    cases result
    exact accepted.2.1.nonneg
  · rw [if_neg accepted] at result
    cases result

/-- The value comes back from its text. -/
def Survives (v : Int) (format : CdlValueFormat) : Prop := (integerToString v format).bind stringToInteger = some v

theorem number_append_digits (base : Int) (front rest : List Char) :
    number base (front ++ rest) = base ^ rest.length * number base front + number base rest := by
  induction rest using reverseRecOn with
  | nil => simp [number]
  | append_singleton rest c ih =>
    rw [← append_assoc, number_append, number_append, ih, length_append, length_singleton, pow_succ]
    ring

theorem hex_survives {v : Int} (low : -2 ^ 63 ≤ v) (high : v < 2 ^ 63) (other : v ≠ 0) :
    integerToString v .hex ≠ none ∧ (Survives v .hex ↔ 0 ≤ v) := by
  obtain ⟨ds, eq, length, all, value⟩ := putHex_spec 8 v [] (by simp)
  have result : ∃ ds', integerToString v .hex = some ('0' :: 'x' :: ds') ∧
      (0 ≤ v → ds' ≠ [] ∧ (∀ c ∈ ds', isxdigit c = true) ∧ number 16 ds' = v) := by
    simp only [append_nil] at eq
    simp only [integerToString, other, if_false, eq, bind_eq_bind, bind_some]
    generalize same : (v / 16 ^ 8 / 2 ^ 16 % 2 ^ 16 * 2 ^ 16).bmod (2 ^ 32) + v / 16 ^ 8 % 2 ^ 16 = w
    have upper : 0 ≤ v → w = v / 16 ^ 8 := by
      intro positive
      rw [← same, bmod_eq_of_le (by omega) (by omega)]
      omega
    by_cases more : w ≠ 0
    · obtain ⟨ds', eq', length', all', value'⟩ := putHex_spec 8 w ds (by omega)
      have room : (ds' ++ ds).length = 16 := by simp [length, length']
      rw [if_pos more, eq', map_some, bind_some, put_eq _ (by dsimp only; omega), bind_some,
        put_eq _ (by simp only [length_cons]; omega)]
      refine ⟨_, rfl, fun positive => ⟨ne_nil_of_length_eq_add_one room, fun c mem => ?_, ?_⟩⟩
      · exact (mem_append.mp mem).elim (all' c) (all c)
      · have whole := upper positive
        rw [number_append_digits, length, value', value]
        omega
    · rw [if_neg more, put_eq _ (by omega), bind_some, put_eq _ (by simp only [length_cons]; omega)]
      refine ⟨_, rfl, fun positive => ⟨ne_nil_of_length_eq_add_one length, all, ?_⟩⟩
      rw [value]
      have none := upper positive
      omega
  obtain ⟨ds', eq', right⟩ := result
  rw [Survives, eq', bind_some]
  refine ⟨by simp, fun result => nonneg_of_read rfl result, fun positive => ?_⟩
  obtain ⟨some', all', value'⟩ := right positive
  have shape : scheme ('0' :: 'x' :: ds') = ⟨16, isxdigit, ds'⟩ := rfl
  have back := @read_numeral ('0' :: 'x' :: ds') false (by rwa [shape]) (by rw [shape]; exact all')
    (by rw [shape, Scheme.number, value']; exact high)
  rw [shape, Scheme.number, value'] at back
  exact back

theorem octal_survives {v : Int} (high : v < 2 ^ 63) (other : v ≠ 0) :
    integerToString v .octal ≠ none ∧ (Survives v .octal ↔ 0 ≤ v) := by
  rw [Survives]
  simp only [integerToString, other, if_false, bind_eq_bind]
  by_cases positive : 0 ≤ v
  · obtain ⟨ds, eq, length, value, all, _, head⟩ := @putDigits_spec 8 (by decide) (by decide) 21 64 v []
      (by omega) (by decide) (by simp) positive
    obtain ⟨c, rest, rfl, _⟩ := head (by omega)
    have digits : ∀ d ∈ c :: rest, isodigit d = true := by
      intro d mem
      have code := all d mem
      simp only [isodigit, decide_eq_true_eq]
      omega
    have notHex : ¬ (c = 'x' ∨ c = 'X') := by
      have first := digits c (mem_cons_self ..)
      rintro (rfl | rfl) <;> cases first
    have shape : scheme ('0' :: c :: rest) = ⟨8, isodigit, c :: rest⟩ :=
      (if_neg notHex).trans (if_pos (digits c (mem_cons_self ..)))
    have back := @read_numeral ('0' :: c :: rest) false (by rw [shape]; simp) (by rw [shape]; exact digits)
      (by rw [shape, Scheme.number, value]; exact high)
    rw [shape, Scheme.number, value] at back
    rw [append_nil] at eq
    rw [eq, bind_some, put_eq _ (by omega), bind_some]
    exact ⟨by simp, fun _ => positive, fun _ => back⟩
  · have none : putDigits 8 64 v [] = some [] := if_neg (by omega)
    rw [none, bind_some, put_eq _ (by simp), bind_some]
    refine ⟨by simp, fun zero => ?_, fun is => absurd is positive⟩
    cases (zero : some 0 = some v)
    exact absurd rfl other

theorem default_survives {v : Int} (low : -2 ^ 63 ≤ v) (high : v < 2 ^ 63) (other : v ≠ 0) :
    integerToString v .default ≠ none ∧ (Survives v .default ↔ v ≠ -2 ^ 63) := by
  by_cases least : v = -2 ^ 63
  · subst least
    refine ⟨by decide, iff_of_false ?_ (by simp)⟩
    rw [Survives]
    decide
  · have written (n : Int) (more : 0 < n) (fits : n < 2 ^ 63) : ∃ ds, putDigits 10 64 n [] = some ds ∧ ds.length ≤ 19 ∧
        ∀ minus : Bool, stringToInteger (if minus then '-' :: ds else ds) = some (if minus then -n else n) := by
      obtain ⟨ds, eq, length, value, all, _, head⟩ := @putDigits_spec 10 (by decide) (by decide) 19 64 n []
        (by omega) (by decide) (by simp) more.le
      obtain ⟨c, rest, rfl, first⟩ := head more
      have shape : scheme (c :: rest) = ⟨10, isdigit, c :: rest⟩ := by
        unfold scheme
        split
        · rename_i same
          cases same
          exact absurd rfl first
        · rfl
      refine ⟨c :: rest, by simpa using eq, length, fun minus => ?_⟩
      have back := @read_numeral (c :: rest) minus (by rw [shape]; simp) (by
        rw [shape]
        intro d mem
        have code := all d mem
        simp only [isdigit, decide_eq_true_eq]
        omega) (by rw [shape, Scheme.number, value]; exact fits)
      rwa [shape, Scheme.number, value] at back
    rw [Survives]
    simp only [integerToString, other, if_false, bind_eq_bind]
    by_cases negative : v < 0
    · obtain ⟨ds, eq, length, back⟩ := written (-v) (by omega) (by omega)
      have minus := back true
      simp only [if_true, neg_neg] at minus
      rw [if_pos negative, zero_sub, wrap_of_lt (by omega) (by omega), if_neg (by omega), eq, bind_some,
        put_eq _ (by omega), bind_some]
      exact ⟨by simp, iff_of_true minus least⟩
    · obtain ⟨ds, eq, _, back⟩ := written v (by omega) high
      rw [if_neg negative, eq, bind_some]
      exact ⟨by simp, iff_of_true (back false) least⟩

theorem integer_text (v : Int) (format : CdlValueFormat) (s : List Char) :
    (-2 ^ 63 ≤ v ∧ v < 2 ^ 63 → integerToString v format ≠ none ∧
      (Survives v format ↔ if format = .default then v ≠ -2 ^ 63 else 0 ≤ v)) ∧
    ((∀ u, stringToInteger s = some u ↔ Denotes s u) ↔ Recognized s) := by
  refine ⟨fun bounds => ?_, recognized_iff s⟩
  by_cases zero : v = 0
  · subst zero
    cases format <;> exact ⟨by decide, iff_of_true rfl (by decide)⟩
  · cases format with
    | default => exact default_survives bounds.1 bounds.2 zero
    | hex => exact hex_survives bounds.1 bounds.2 zero
    | octal => exact octal_survives bounds.2 zero

theorem integer_text_hex : Survives 255 .hex := ((integer_text 255 .hex []).1 (by decide)).2.mpr (by decide)

theorem not_integer : ¬ Denotes [] 0 := fun denotes => ((denotes_iff [] 0).mp denotes).1.2.2 rfl

theorem integer_text_fails : ¬ ((∀ v : Int, -2 ^ 63 ≤ v ∧ v < 2 ^ 63 → ∀ format, Survives v format) ∧
    ∀ s v, stringToInteger s = some v ↔ Denotes s v) := by
  rintro ⟨_, read⟩
  exact not_integer ((read [] 0).mp rfl)

end Ecos.Cdl.Integer
