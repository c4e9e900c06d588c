import Mathlib
import Ecos.Ramfs.DirentSafety

namespace Ecos.Ramfs
open List Nat Function

namespace Dir
variable {N : Type} {cfg : DirentConfig} {d d' : Dir N} {fuel n pos p k : Nat} {name : List UInt8} {node : N}
  {first : Bool} {rest : List Nat} {entries : List (Entry N)} {e : Entry N}

theorem Chain.clear (held : Chain cfg d.slot node first name (p :: rest)) (fuel : Nat) (once : (p :: rest).Nodup)
    (enough : (p :: rest).length ≤ fuel) :
    ∃ d', d.clear fuel p = some d' ∧ d'.size = d.size ∧ d'.datasize = d.datasize ∧
      (∀ x ∈ p :: rest, (d'.slot x).inuse = false) ∧ ∀ x, x ∉ p :: rest → d'.slot x = d.slot x := by
  generalize whole : p :: rest = chain at held once enough
  induction chain generalizing d p rest fuel first name with
  | nil => simp at whole
  | cons p' rest' ih =>
    obtain ⟨rfl, rfl⟩ := cons.inj whole
    obtain ⟨fuel, rfl⟩ : ∃ k, fuel = k + 1 := ⟨fuel - 1, by simp at enough; omega⟩
    set d₁ : Dir N := { d with slot := update d.slot p { d.slot p with inuse := false } } with free
    have here : (d₁.slot p).inuse = false := by simp [free]
    have others : ∀ x, x ≠ p → d₁.slot x = d.slot x := fun x other => update_of_ne other ..
    cases held with
    | last fragment short ends =>
      refine ⟨d₁, by simp [Dir.clear, ends, free], rfl, rfl, by simpa using here, fun x notIn => ?_⟩
      exact others x (by simpa using notIn)
    | @more _ _ _ q rest fragment long goes next tail =>
      obtain ⟨absent, once'⟩ := nodup_cons.mp once
      have kept : Chain cfg d₁.slot node false (name.drop cfg.nameSize) (q :: rest) :=
        tail.congr fun x mem => others x fun same => absent (same ▸ mem)
      obtain ⟨d₂, result, size, datasize, cleared, left⟩ := ih fuel rfl kept once' (by simpa using enough)
      refine ⟨d₂, ?_, size, datasize, fun x mem => ?_, fun x notIn => ?_⟩
      · have unroll : d.clear (fuel + 1) p = if (d.slot p).last = true then some d₁ else d₁.clear fuel (d.slot p).next := rfl
        rw [unroll, if_neg (by simp [goes]), next]
        exact result
      · rcases mem_cons.mp mem with rfl | later
        · rw [left x absent]
          exact here
        · exact cleared x later
      · obtain ⟨other, notIn'⟩ := not_or.mp (mem_cons.not.mp notIn)
        rw [left x notIn', others x other]

section Fuel
variable {m : Nat} {frag : List UInt8}

theorem compare_mono {b : Bool} (run : d.compare fuel pos frag = some b) (le : fuel ≤ m) : d.compare m pos frag = some b := by
  refine fuel_mono (F := fun n x => d.compare n x.1 x.2) (fun _ => rfl) (fun n m _ ih x => ?_) le (pos, frag) b run
  exact .ite (fun differ => .refl) fun same => .ite (fun ends => .refl) fun more => ih (_, _)

theorem findFrom_mono {r : Option Nat} (run : d.findFrom cfg name fuel pos = some r) (le : fuel ≤ m) :
    d.findFrom cfg name m pos = some r := by
  refine fuel_mono (fun _ => rfl) (fun n m le ih pos => ?_) le pos r run
  refine .ite (fun below => .ite (fun none => .refl) fun room => .ite (fun skipped => ih _) fun shown =>
    .ite (fun length => ?_) fun other => ih _) fun past => .refl
  cases compared : d.compare n pos name with
  | none => exact fun _ none => by cases none
  | some b =>
    rw [compare_mono compared le]
    cases b with
    | true => exact .refl
    | false => exact ih _

theorem clear_mono (run : d.clear fuel pos = some d') (le : fuel ≤ m) : d.clear m pos = some d' := by
  refine fuel_mono (F := fun n x => x.1.clear n x.2) (fun _ => rfl) (fun n m _ ih x => ?_) le (d, pos) d' run
  exact .ite (fun ends => .refl) fun more => ih (_, _)

theorem delDirentry_mono {r : Option (Dir N)} (run : d.delDirentry cfg fuel name = some r) (le : fuel ≤ m) :
    d.delDirentry cfg m name = some r := by
  unfold delDirentry findDirentry at run ⊢
  split at run
  · simp at run
  · next found => rw [findFrom_mono found le, run]
  · next p found =>
    obtain ⟨d', cleared, rfl⟩ := Option.map_eq_some_iff.mp run
    rw [findFrom_mono found le]
    exact Option.map_eq_some_iff.mpr ⟨d', clear_mono cleared le, rfl⟩

end Fuel

/-- `del_direntry` takes one name out. -/
theorem Inv.del (inv : Inv cfg d entries) (run : d.delDirentry cfg fuel name = some (some d')) (enough : 256 ≤ fuel)
    (found : ∀ p, d.findDirentry cfg fuel name = some (some p) →
      ∃ e ∈ entries, e.name = name ∧ ∃ rest, e.chain = p :: rest) :
    Inv cfg d' (entries.filter fun e => e.name ≠ name) := by
  unfold delDirentry at run
  split at run
  · simp at run
  · simp at run
  · next p here =>
    obtain ⟨e, mem, same, rest, chain⟩ := found p here
    have held := inv.chains e mem
    have once : (p :: rest).Nodup := by
      obtain ⟨l, r, rfl⟩ := append_of_mem mem
      have all := inv.once
      simp only [flatMap_append, flatMap_cons, chain] at all
      exact (nodup_append.mp (nodup_append.mp all).2.1).1
    have long := (inv.chain_head mem chain).2.2.2.2
    rw [chain] at held long
    obtain ⟨d₁, result, size, datasize, cleared, left⟩ := held.clear fuel once (by omega)
    rw [result, Option.map_some, Option.some.injEq, Option.some.injEq] at run
    subst run
    have only : ∀ f ∈ entries, f.name = name → f = e := fun f inF equal =>
      inj_on_of_nodup_map inv.names inF mem (equal.trans same.symm)
    have apart : ∀ f ∈ entries, f.name ≠ name → ∀ x ∈ f.chain, x ∉ p :: rest := by
      intro f inF other x inChain inE
      obtain ⟨l, r, rfl⟩ := append_of_mem mem
      have all := inv.once
      simp only [flatMap_append, flatMap_cons, chain] at all
      obtain ⟨_, right, early⟩ := nodup_append.mp all
      obtain ⟨_, _, late⟩ := nodup_append.mp right
      simp only [mem_append, mem_cons] at inF
      rcases inF with inL | rfl | inR
      · exact early x (mem_flatMap.mpr ⟨f, inL, inChain⟩) x (mem_append_left _ inE) rfl
      · exact other same
      · exact late x inE x (mem_flatMap.mpr ⟨f, inR, inChain⟩) rfl
    have room : ∀ x, d₁.room cfg x = d.room cfg x := fun x => by rw [Dir.room, Dir.room, datasize]
    have part : (entries.filter fun e => e.name ≠ name).Sublist entries := filter_sublist
    refine ⟨?_, ?_, ?_, ?_, ?_, ?_, size ▸ inv.whole, ?_⟩
    · intro f inF
      obtain ⟨inF, other⟩ := mem_filter.mp inF
      exact (inv.chains f inF).congr fun x inChain => left x (apart f inF (by simpa using other) x inChain)
    · exact (part.map _).nodup inv.names
    · exact fun f inF => inv.sizes f (part.subset inF)
    · exact (part.flatMap Entry.chain).nodup inv.once
    · intro x inuse
      have notIn : x ∉ p :: rest := fun inE => by
        rw [cleared x inE] at inuse
        simp at inuse
      rw [left x notIn] at inuse
      obtain ⟨f, inF, inChain⟩ := mem_flatMap.mp (inv.used x inuse)
      refine mem_flatMap.mpr ⟨f, mem_filter.mpr ⟨inF, ?_⟩, inChain⟩
      have other : f.name ≠ name := fun equal => notIn (by rw [only f inF equal, chain] at inChain; exact inChain)
      simpa using other
    · intro x inFlat
      obtain ⟨f, inF, inChain⟩ := mem_flatMap.mp inFlat
      rw [size, room]
      exact inv.inside x (mem_flatMap.mpr ⟨f, part.subset inF, inChain⟩)
    · intro x below
      rw [size] at below
      rw [room]
      exact inv.pages x below

theorem Inv.nextFirst (inv : Inv cfg d entries) (fuel : Nat) (end' : pos + k * cfg.sizeofDirent = d.size) (enough : k < fuel)
    (multiple : cfg.sizeofDirent ∣ pos) :
    ∃ r, d.nextFirst cfg fuel pos = some r ∧
      (∀ p, r = some p → pos ≤ p ∧ (∃ e ∈ entries, ∃ rest, e.chain = p :: rest) ∧
        ∀ e ∈ entries, ∀ q rest, e.chain = q :: rest → q < pos ∨ p ≤ q) ∧
      (r = none → ∀ e ∈ entries, ∀ q rest, e.chain = q :: rest → q < pos) := by
  have size := cfg.sizeofDirent_pos
  induction k generalizing pos fuel with
  | zero =>
    obtain ⟨fuel, rfl⟩ : ∃ k, fuel = k + 1 := ⟨fuel - 1, by omega⟩
    refine ⟨none, ?_, by simp, fun _ e mem q rest chain => ?_⟩
    · simp only [Dir.nextFirst]
      rw [if_neg (by omega), if_pos (by omega)]
    · have inside := (inv.chain_head mem chain).2.1
      omega
  | succ k ih =>
    obtain ⟨fuel, rfl⟩ : ∃ k, fuel = k + 1 := ⟨fuel - 1, by omega⟩
    rw [succ_mul] at end'
    have below : pos < d.size := by omega
    have room := inv.pages pos below
    simp only [Dir.nextFirst, if_pos below, if_neg (Nat.pos_iff_ne_zero.mp room)]
    split
    · next skipped =>
      obtain ⟨r, later, found, absent⟩ := @ih (pos + cfg.sizeofDirent) fuel (by omega) (by omega)
        (Nat.dvd_add multiple (Nat.dvd_refl _))
      have before : ∀ e ∈ entries, ∀ q rest, e.chain = q :: rest → q < pos + cfg.sizeofDirent → q < pos := by
        intro e mem q rest chain less
        have le := lt_of_multiple (inv.chain_head mem chain).2.2.1 multiple less
        refine Nat.lt_of_le_of_ne le ?_
        rintro rfl
        exact inv.not_skipped mem chain skipped
      refine ⟨r, later, fun p some => ?_, fun none e mem q rest chain => ?_⟩
      · obtain ⟨le, head, least⟩ := found p some
        refine ⟨by omega, head, fun e mem q rest chain => ?_⟩
        exact (least e mem q rest chain).imp_left (before e mem q rest chain)
      · exact before e mem q rest chain (absent none e mem q rest chain)
    · next shown =>
      rw [not_or, not_or, Bool.not_eq_false, Bool.not_eq_false] at shown
      refine ⟨some pos, rfl, ?_, by simp⟩
      rintro _ ⟨⟩
      exact ⟨le_rfl, inv.head shown.2.1 shown.2.2, fun _ _ q _ _ => lt_or_ge q pos⟩

/-- The chain of an entry begins at or behind a position. -/
def Entry.from (pos : Nat) (e : Entry N) : Bool := decide (pos ≤ e.chain.headD 0)

/-- The calls of `ramfs_fo_dirread` return the names whose chains begin behind the offset. -/
theorem Inv.readAll (inv : Inv cfg d entries) (end' : pos + k * cfg.sizeofDirent = d.size) (enough : k + 256 ≤ fuel)
    (calls : k < n) (multiple : cfg.sizeofDirent ∣ pos) :
    ∃ names, d.readAll cfg fuel n pos = some names ∧
      names.Perm ((entries.filter (Entry.from pos)).map fun e => e.name.take nameMax) := by
  have size := cfg.sizeofDirent_pos
  induction n generalizing pos k with
  | zero => omega
  | succ n ih =>
    obtain ⟨r, next, found, absent⟩ := inv.nextFirst fuel end' (by omega) multiple
    have headed : ∀ e ∈ entries, ∃ q rest, e.chain = q :: rest := by
      intro e mem
      have held := inv.chains e mem
      cases chain : e.chain with
      | nil =>
        rw [chain] at held
        cases held
      | cons q rest => exact ⟨q, rest, rfl⟩
    cases r with
    | none =>
      refine ⟨[], by simp [Dir.readAll, dirread, next], ?_⟩
      have none : entries.filter (Entry.from pos) = [] := by
        refine filter_eq_nil_iff.mpr fun e mem => ?_
        obtain ⟨q, rest, chain⟩ := headed e mem
        have less := absent rfl e mem q rest chain
        simpa [Entry.from, chain] using less
      rw [none]
      exact .nil
    | some p =>
      obtain ⟨le, ⟨e, mem, rest, chain⟩, least⟩ := found p rfl
      obtain ⟨_, inside, divides, _, long⟩ := inv.chain_head mem chain
      have held := inv.chains e mem
      rw [chain] at held long
      have name : d.copyName fuel p nameMax = some (e.name.take nameMax) := held.copyName (by omega)
      obtain ⟨j, hj⟩ : ∃ j, p + cfg.sizeofDirent + j * cfg.sizeofDirent = d.size := by
        obtain ⟨i, hi⟩ := Nat.dvd_sub inv.whole (Nat.dvd_add divides (Nat.dvd_refl cfg.sizeofDirent))
        refine ⟨i, ?_⟩
        rw [Nat.mul_comm i]
        omega
      have fewer : j < k := by
        have less : (j + 1) * cfg.sizeofDirent ≤ k * cfg.sizeofDirent := by
          rw [succ_mul]
          omega
        exact Nat.le_of_mul_le_mul_right less size
      obtain ⟨more, rest', perm⟩ := @ih (p + cfg.sizeofDirent) _ hj (by omega) (by omega)
        (Nat.dvd_add divides (Nat.dvd_refl _))
      refine ⟨e.name.take nameMax :: more, by simp [Dir.readAll, dirread, next, name, rest'], ?_⟩
      obtain ⟨l, r, rfl⟩ := append_of_mem mem
      -- the other chains begin before the offset or behind this fragment
      have others : ∀ f ∈ l ++ r, Entry.from pos f = Entry.from (p + cfg.sizeofDirent) f := by
        intro f inF
        have inAll : f ∈ l ++ e :: r := by
          simp only [mem_append, mem_cons] at inF ⊢
          tauto
        obtain ⟨q, rest'', chain'⟩ := headed f inAll
        have distinct : q ≠ p := by
          rintro rfl
          obtain rfl := inv.head_inj inAll mem chain' chain
          have names := inv.names
          rw [map_append, map_cons] at names
          have twice : f.name ∈ (l ++ r).map Entry.name := mem_map_of_mem inF
          have once := (perm_middle.nodup_iff.mp names)
          rw [map_append] at twice
          exact (nodup_cons.mp once).1 twice
        have grid := (inv.chain_head inAll chain').2.2.1
        simp only [Entry.from, chain', headD_cons, decide_eq_decide]
        rcases least f inAll q rest'' chain' with before | after
        · omega
        · constructor
          · intro _
            by_contra less
            have le' := lt_of_multiple grid divides (by omega)
            omega
          · omega
      have here : Entry.from pos e = true := by simpa [Entry.from, chain] using le
      have gone : Entry.from (p + cfg.sizeofDirent) e = false := by
        simp only [Entry.from, chain, headD_cons, decide_eq_false_iff_not]
        omega
      have left : l.filter (Entry.from pos) = l.filter (Entry.from (p + cfg.sizeofDirent)) :=
        filter_congr fun f inF => others f (mem_append_left _ inF)
      have right : r.filter (Entry.from pos) = r.filter (Entry.from (p + cfg.sizeofDirent)) :=
        filter_congr fun f inF => others f (mem_append_right _ inF)
      rw [filter_append, filter_cons_of_neg (by simp [gone])] at perm
      rw [filter_append, filter_cons_of_pos here, left, right, map_append, map_cons]
      rw [map_append] at perm
      exact (perm.cons _).trans perm_middle.symm

end Dir

namespace Directory
variable {N : Type} {cfg : DirentConfig} {s t : Directory N}

/-- The directory holds the map. -/
def Holds (cfg : DirentConfig) (s : Directory N) : Prop :=
  ∃ entries : List (Dir.Entry N), Dir.Inv cfg s.dir entries ∧ s.map = entries.map fun e => (e.name, e.node)

theorem Holds.step (holds : s.Holds cfg) (step : Step cfg (fun d name => d.CleanFor cfg name) s t) : t.Holds cfg := by
  obtain ⟨entries, inv, map⟩ := holds
  have keys : s.map.map Prod.fst = entries.map Dir.Entry.name := by
    rw [map, map_map]
    rfl
  cases step with
  | add d' fuel name node nonempty short absent clean run =>
    obtain ⟨chain, inv'⟩ := inv.add run nonempty short (keys ▸ absent) clean
    exact ⟨_, inv', by simp [map]⟩
  | del d' fuel name run =>
    obtain ⟨n, finds⟩ := inv.findDirentry name
    have enough : n ≤ max fuel (n + 256) := by omega
    obtain ⟨r, result, found, _⟩ := finds _ enough
    refine ⟨_, inv.del (Dir.delDirentry_mono run (le_max_left fuel (n + 256))) (by omega) fun p here => ?_, ?_⟩
    · refine found p ?_
      rw [result] at here
      exact Option.some.inj here
    · rw [map, filter_map]
      rfl

theorem Holds.reach (reach : (machine cfg fun d name => d.CleanFor cfg name).Reach s) : s.Holds cfg := by
  refine reach.invariant (P := Holds cfg) ?_ fun s t holds step => holds.step step
  rintro _ rfl
  exact ⟨[], Dir.Inv.empty, rfl⟩

/-- In every run that puts no fragment but the last one where a last one was, a
directory is a finite map: `find_direntry` finds the names that are there and
nothing else, `ramfs_fo_dirread` returns each name, cut to `NAME_MAX`, once, the
entries in use are the fragments of the names, and the calls return. -/
theorem directory_is_map (reach : (machine cfg fun d name => d.CleanFor cfg name).Reach s) :
    (s.map.map Prod.fst).Nodup ∧
    (∀ name, ∃ fuel r, s.dir.findDirentry cfg fuel name = some r ∧ (r.isSome ↔ name ∈ s.map.map Prod.fst) ∧
      ∀ p, r = some p → ∃ node, (s.dir.slot p).node = some node ∧ (name, node) ∈ s.map) ∧
    (∃ fuel n names, s.dir.readAll cfg fuel n 0 = some names ∧ names.Perm (s.map.map fun e => e.1.take Dir.nameMax)) ∧
    (∃ chains : List (List Nat), (∀ p, (s.dir.slot p).inuse = true ↔ p ∈ chains.flatten) ∧ chains.flatten.Nodup ∧
      chains.map List.length = s.map.map fun e => (e.1.length - 1) / cfg.nameSize + 1) ∧
    (∀ name node, name ≠ [] → name.length ≤ 255 → ∃ fuel, s.dir.addDirentry cfg fuel name node ≠ none) ∧
    ∀ name ∈ s.map.map Prod.fst, ∃ fuel d', s.dir.delDirentry cfg fuel name = some (some d') := by
  obtain ⟨entries, inv, map⟩ := Holds.reach reach
  have keys : s.map.map Prod.fst = entries.map Dir.Entry.name := by
    rw [map, map_map]
    rfl
  have mem : ∀ name p, (∃ e ∈ entries, e.name = name ∧ ∃ rest, e.chain = p :: rest) → name ∈ s.map.map Prod.fst := by
    rintro name p ⟨e, inE, rfl, _⟩
    rw [keys]
    exact mem_map_of_mem inE
  refine ⟨keys ▸ inv.names, fun name => ?_, ?_, ⟨entries.map Dir.Entry.chain, fun p => ?_, ?_, ?_⟩,
    fun name node nonempty short => ?_, fun name present => ?_⟩
  · obtain ⟨n, finds⟩ := inv.findDirentry name
    obtain ⟨r, result, found, absent⟩ := finds n le_rfl
    refine ⟨n, r, result, ⟨fun some => ?_, fun present => ?_⟩, fun p here => ?_⟩
    · obtain ⟨p, here⟩ := Option.isSome_iff_exists.mp some
      exact mem name p (found p here)
    · by_contra none
      exact absent (by simpa using none) (keys ▸ present)
    · obtain ⟨e, inE, rfl, rest, chain⟩ := found p here
      refine ⟨e.node, (inv.chain_head inE chain).1.node, ?_⟩
      rw [map]
      exact List.mem_map.mpr ⟨e, inE, rfl⟩
  · obtain ⟨k, end'⟩ := inv.size_eq
    obtain ⟨names, result, perm⟩ := inv.readAll end' (le_refl (k + 256)) (Nat.lt_succ_self k) (Nat.dvd_zero _)
    refine ⟨k + 256, k + 1, names, result, perm.trans ?_⟩
    have all : entries.filter (Dir.Entry.from 0) = entries := List.filter_eq_self.mpr fun e _ => by simp [Dir.Entry.from]
    rw [all, map, map_map]
    exact .refl _
  · rw [← flatMap_def]
    refine ⟨inv.used p, fun inFlat => ?_⟩
    obtain ⟨e, inE, inChain⟩ := List.mem_flatMap.mp inFlat
    exact (inv.chains e inE).used p inChain
  · rw [← flatMap_def]
    exact inv.once
  · rw [map, map_map, map_map]
    exact map_congr_left fun e inE => (inv.chains e inE).length_eq (inv.sizes e inE).1
  · have bound : ∃ b, ∀ q, b ≤ q → (s.dir.slot q).inuse = false := by
      refine ⟨s.dir.size, fun q far => ?_⟩
      cases inuse : (s.dir.slot q).inuse with
      | false => rfl
      | true =>
        have inside := (inv.inside q (inv.used q inuse)).1
        have positive := cfg.sizeofDirent_pos
        omega
    obtain ⟨fuel, run⟩ := Dir.addFragments_ends cfg node 0 none le_rfl nonempty short bound
      (Nat.dvd_zero _) (by simp)
    exact ⟨fuel, by rwa [Dir.addDirentry, if_neg nonempty]⟩
  · obtain ⟨n, finds⟩ := inv.findDirentry name
    obtain ⟨r, result, found, absent⟩ := finds (n + 256) (by omega)
    cases r with
    | none => exact absurd (keys ▸ present) (absent rfl)
    | some p =>
      obtain ⟨e, inE, same, rest, chain⟩ := found p rfl
      have held := inv.chains e inE
      have long := (inv.chain_head inE chain).2.2.2.2
      have once : (p :: rest).Nodup := by
        rw [← chain]
        exact inv.once.sublist (sublist_flatten_of_mem (mem_map_of_mem inE))
      rw [chain] at held long
      obtain ⟨d', cleared, _⟩ := held.clear (n + 256) once (by omega)
      exact ⟨n + 256, d', by simp [Dir.delDirentry, result, cleared]⟩

section Runs

/-- The default values, with `malloc`. -/
def defaultDirents : DirentConfig := ⟨.simple SimpleData.defaultIncrement, 32, by decide, by decide⟩

/-- The directory after `add_direntry`, and after `del_direntry`. -/
def added (d : Dir Nat) (name : List UInt8) (node : Nat) : Dir Nat :=
  (d.addDirentry defaultDirents 8 name node).getD d

def deleted (d : Dir Nat) (name : List UInt8) : Dir Nat :=
  ((d.delDirentry defaultDirents 8 name).bind id).getD d

theorem clean_of_found {d : Dir N} {d₀ : Dir N} {n k pos p : Nat} (found : d.findFree cfg n pos = some (d₀, p))
    (clear : (d.slot p).last = false)
    (rest : ({ d with datasize := d₀.datasize } : Dir N).Clean cfg k (p + cfg.sizeofDirent)) : d.Clean cfg (k + 1) pos := by
  intro fuel d' p' found'
  have first := Dir.findFree_mono found (le_max_left n fuel)
  have second := Dir.findFree_mono found' (le_max_right n fuel)
  rw [first, Option.some.injEq, Prod.mk.injEq] at second
  obtain ⟨rfl, rfl⟩ := second
  exact ⟨clear, rest⟩

/-- A name of two fragments: twenty bytes and five more. -/
def longName (c : UInt8) : List UInt8 := List.replicate 20 120 ++ List.replicate 5 c

theorem directory_is_map_long : ∃ fuel n names,
    (added (added .empty [97] 1) (longName 121) 2).readAll defaultDirents fuel n 0 = some names ∧
      names.Perm [longName 121, [97]] := by
  have start : (machine defaultDirents fun (d : Dir Nat) name => d.CleanFor defaultDirents name).Reach ⟨.empty, []⟩ := .start rfl
  have short := start.next (.add (added .empty [97] 1) 8 [97] 1 (by decide) (by decide)
    (by decide) trivial rfl)
  have clean : (added .empty [97] 1).CleanFor defaultDirents (longName 121) :=
    clean_of_found (n := 8) (k := 0) (p := 32) rfl rfl trivial
  have long := short.next (.add (added (added .empty [97] 1) (longName 121) 2) 8 (longName 121) 2 (by decide) (by decide) (by decide) clean rfl)
  exact (directory_is_map long).2.2.1

/-- A name of 65 bytes is cut to 64 by `ramfs_fo_dirread`. And when the entry of a
short name is used again for the first fragment of a long one, `last` is still
set there, so that any name with the same first fragment is found. -/
theorem names_cut_and_confused :
    (¬ ∀ (cfg : DirentConfig) (s : Directory Nat), (machine cfg fun _ _ => True).Reach s →
      ∀ fuel n names, s.dir.readAll cfg fuel n 0 = some names → names.Perm (s.map.map Prod.fst)) ∧
    ¬ ∀ (cfg : DirentConfig) (s : Directory Nat), (machine cfg fun _ _ => True).Reach s →
      ∀ fuel name p, s.dir.findDirentry cfg fuel name = some (some p) → name ∈ s.map.map Prod.fst := by
  have start : (machine defaultDirents fun (_ : Dir Nat) _ => True).Reach ⟨.empty, []⟩ := .start rfl
  constructor
  · intro claim
    have long := start.next (.add (added .empty (List.replicate 65 97) 1) 8 (List.replicate 65 97) 1 (by decide) (by decide) (by decide) trivial rfl)
    have perm := claim _ _ long 256 2 [List.replicate 64 97] (by decide +kernel)
    exact absurd (perm.mem_iff.mp (mem_singleton_self _)) (by decide)
  · intro claim
    have first := start.next (.add (added .empty [97] 1) 8 [97] 1 (by decide) (by decide)
      (by decide) trivial rfl)
    have gone := first.next (.del (deleted (added .empty [97] 1) [97]) 8 [97] rfl)
    have again := gone.next (.add (added (deleted (added .empty [97] 1) [97]) (longName 121) 2) 8 (longName 121) 2 (by decide) (by decide) (by decide) trivial rfl)
    have found := claim _ _ again 8 (longName 122) 0 (by decide +kernel)
    exact absurd found (by decide)

end Runs

end Directory

end Ecos.Ramfs
