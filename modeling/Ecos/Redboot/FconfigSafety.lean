import Mathlib.Data.List.Nodup
import Ecos.Redboot.FconfigCells

namespace Ecos.Redboot
open List Nat Function

/-- An entry of the database as its users see it. -/
structure Item where
  key : CString
  type : CfgType
  enable : Option CString
  value : List UInt8

namespace Cell

def item (c : Cell) : Item := ⟨c.key, c.type, c.enable, value c.type c.field⟩

theorem Ok.put {b : Build} {c : Cell} {l : List UInt8} (ok : Ok b c) (fits : l.length ≤ c.field.length)
    (ended : isString c.type → 0 ∈ l ++ c.field.drop l.length) : Ok b (c.put l) :=
  ⟨ok.key_some, ok.key_short, ok.enable_short, (put_length fits).trans ok.field_length, ended⟩

end Cell

/-- The database with another value under a key. -/
def putValue (db : List Item) (key : CString) (value : List UInt8) : List Item :=
  db.map fun item => if item.key = key then { item with value } else item

/-- The lines of a script up to the empty one. -/
def scriptText : List Typed → List UInt8
  | .line text :: rest => if text.bytes = [] then [] else text.bytes ++ [10] ++ scriptText rest
  | _ => []

namespace Build
variable {b : Build} {mem : Nat → UInt8} {p q : Nat} {c d : Cell} {cs : List Cell} {key : CString} {l : List UInt8}
  {opt : ConfigOption} {cfg : Config}

open Cell

/-- The memory holds the objects and nothing else. -/
structure Held (b : Build) (mem : Nat → UInt8) (cs : List Cell) (q : Nat) : Prop where
  chain : Chain mem 0 cs q
  cells : ∀ c ∈ cs, Ok b c
  distinct : (cs.map fun c => c.key.bytes).Nodup
  inside : q ≤ b.size
  blank : Blank mem q b.size

/-- A key that can be looked up. -/
structure Sought (b : Build) (mem : Nat → UInt8) (key : CString) : Prop where
  filled : key.bytes ≠ []
  unlike : Unlike b mem key.bytes

theorem CString.ext {a b : CString} (same : a.bytes = b.bytes) : a = b := by
  cases a
  cases b
  cases same
  rfl

theorem Held.unique (held : Held b mem cs q) (member : c ∈ cs) (member' : d ∈ cs) (same : c.key.bytes = d.key.bytes) :
    c = d := inj_on_of_nodup_map held.distinct member member' same

theorem Held.lookup (held : Held b cfg.mem cs q) (ok : cfg.ok) (sought : Sought b cfg.mem key) :
    b.flashLookupConfig cfg key = place key.bytes cs 0 := by
  rw [flashLookupConfig, if_pos ok]
  exact lookupFrom_chain held.chain held.cells held.inside held.blank sought.filled key.plain sought.unlike (by omega)

theorem Held.congr {mem' : Nat → UInt8} (held : Held b mem cs q) (same : ∀ i < b.size, mem' i = mem i) :
    Held b mem' cs q := by
  obtain ⟨chain, cells, distinct, inside, blank⟩ := held
  refine ⟨chain.congr fun i _ high => same i (by omega), cells, distinct, inside, fun i low high => ?_⟩
  rw [same i high]
  exact blank i low high

theorem flashWriteConfig_inside {i : Nat} (inside : i < b.size) : b.flashWriteConfig mem i = mem i := by
  rw [flashWriteConfig]
  rw [overwrite_of_lt (by omega), overwrite_of_lt inside]

section
variable (held : Held b mem cs q)
include held

theorem Held.written : Held b (b.flashWriteConfig mem) cs q :=
  held.congr fun _ inside => flashWriteConfig_inside inside

theorem Held.updated {update : Bool} : Held b (b.updated mem update) cs q := by
  rw [Build.updated]
  split
  · exact held.written
  · exact held

theorem Held.put (found : place key.bytes cs 0 = some p) (member : c ∈ cs)
    (same : c.key.bytes = key.bytes) (fits : l.length ≤ c.field.length)
    (ended : isString c.type → 0 ∈ l ++ c.field.drop l.length) :
    Held b (overwrite mem (p + c.start) l) (putAt key.bytes l cs) q := by
  have keys : ((putAt key.bytes l cs).map fun c => c.key.bytes) = cs.map fun c => c.key.bytes := by
    rw [putAt, map_map]
    refine map_congr_left fun d _ => ?_
    rw [comp_apply]
    split <;> rfl
  obtain ⟨-, d, inside, same', lies, bound⟩ := held.chain.place_some found
  obtain rfl := held.unique member inside (same.trans same'.symm)
  refine ⟨held.chain.putAt held.distinct found member same fits, ?_, by rw [keys]; exact held.distinct, held.inside, ?_⟩
  · intro e changed
    obtain ⟨d, old, rfl⟩ := mem_map.mp changed
    split
    · next equal =>
      obtain rfl := held.unique old member (equal.trans same.symm)
      exact (held.cells d old).put fits ended
    · exact held.cells d old
  · intro i low high
    rw [overwrite_of_ge (by rw [Cell.size] at bound; omega)]
    exact held.blank i low high

theorem items_put (member : c ∈ cs) (same : c.key.bytes = key.bytes) :
    (putAt key.bytes l cs).map item = putValue (cs.map item) key (value c.type (l ++ c.field.drop l.length)) := by
  rw [putAt, putValue, map_map, map_map]
  refine map_congr_left fun d inside => ?_
  rw [comp_apply, comp_apply]
  by_cases equal : d.key.bytes = key.bytes
  · obtain rfl := held.unique inside member (equal.trans same.symm)
    rw [if_pos equal]
    exact (if_pos (CString.ext equal)).symm
  · rw [if_neg equal]
    exact (if_neg fun whole => equal (congrArg CString.bytes whole)).symm

end

/-- What a field holds after the value at `val` has been copied as a whole. -/
def stored (b : Build) (type : CfgType) (val : Nat → UInt8) : List UInt8 := value type (window val 0 (b.configLength type))

/-- The value an option brings. -/
def optValue (b : Build) (opt : ConfigOption) : List UInt8 :=
  if opt.type = .netport then b.portName opt.dflt else b.stored opt.type opt.dflt

/-- What a line, or the lines of a script, say. -/
def typedValue (b : Build) (type : CfgType) (lines : List Typed) : List UInt8 :=
  match type, lines with
  | .script, lines => scriptText lines
  | .string, .line text :: _ | .netport, .line text :: _ => text.bytes
  | type, .line text :: _ => (b.parseLine type text.bytes).getD []
  | _, _ => []

section Values
variable {field r : List UInt8} {val : Nat → UInt8}

theorem takeWhile_ended (ended : 0 ∈ l) : (l ++ r).takeWhile (· ≠ 0) = l.takeWhile (· ≠ 0) := by
  induction l with
  | nil => simp at ended
  | cons a l ih =>
    rw [cons_append, takeWhile_cons, takeWhile_cons]
    split
    · next some =>
      rcases mem_cons.mp ended with zero | later
      · exact absurd zero.symm (by simpa using some)
      · rw [ih later]
    · rfl

theorem takeWhile_string (plain : 0 ∉ l) : (l ++ [0] ++ r).takeWhile (· ≠ 0) = l := by
  rw [append_assoc, takeWhile_append_of_pos, singleton_append, takeWhile_cons_of_neg (by simp),
    append_nil]
  intro a member
  exact decide_eq_true fun zero => plain (zero ▸ member)

theorem set_value (ok : Ok b c) (ended : isString c.type → 0 ∈ window val 0 b.maxString)
    (script : c.type = .script → b.maxString ≤ b.maxScript) :
    (window val 0 (b.setLength c.type)).length ≤ c.field.length ∧
      (isString c.type → 0 ∈ window val 0 (b.setLength c.type)) ∧
      value c.type (window val 0 (b.setLength c.type) ++ c.field.drop (window val 0 (b.setLength c.type)).length) =
        b.stored c.type val := by
  have length := ok.field_length
  rw [window_length, length]
  have full (n : Nat) (same : c.field.length = n) : c.field.drop n = [] := drop_of_length_le (le_of_eq same)
  unfold stored
  cases type : c.type with
  | bool | int | ip =>
    rw [type] at length
    refine ⟨le_rfl, by simp [isString], ?_⟩
    rw [show b.setLength _ = 4 from rfl, full 4 length, append_nil]
    rfl
  | esa =>
    rw [type] at length
    refine ⟨by simp [setLength, configLength], by simp [isString], ?_⟩
    simp only [value, setLength, configLength]
    rw [take_left' (by simp), window_take]
    rfl
  | string | netport =>
    rw [type] at length ended
    refine ⟨le_rfl, ended, ?_⟩
    rw [show b.setLength _ = b.maxString from rfl, full b.maxString length, append_nil]
    rfl
  | script =>
    rw [type] at length ended
    have room := script type
    refine ⟨room, ended, ?_⟩
    simp only [value, setLength, configLength]
    have parts : b.maxScript = b.maxString + (b.maxScript - b.maxString) := by omega
    conv_rhs => rw [parts, window_append]
    rw [takeWhile_ended (ended rfl), takeWhile_ended (ended rfl)]

theorem portName_spec (b : Build) (dflt : Nat → UInt8) :
    0 ∉ b.portName dflt ∧ (b.portName dflt).length < b.maxString := by
  unfold portName
  split
  · next port found =>
    have member := mem_of_find?_eq_some found
    exact ⟨port.plain, b.ports_fit port member⟩
  · exact ⟨(b.ports.head b.ports_some).plain, b.ports_fit _ (head_mem _)⟩

theorem insert_value (ok : Ok b c) (type : c.type = opt.type)
    (ended : opt.type = .string → 0 ∈ window opt.dflt 0 b.maxString)
    (script : opt.type = .script → opt.dflt 0 = 0 ∧ c.field.head? = some 0) :
    (b.insertedValue opt).length ≤ c.field.length ∧
      (isString c.type → 0 ∈ b.insertedValue opt ++ c.field.drop (b.insertedValue opt).length) ∧
      value c.type (b.insertedValue opt ++ c.field.drop (b.insertedValue opt).length) = b.optValue opt := by
  have length := ok.field_length
  rw [type] at length
  cases kind : opt.type with
  | bool | int | ip | esa =>
    have copied : b.insertedValue opt = window opt.dflt 0 (b.setLength c.type) := by
      rw [type]
      simp only [insertedValue, setLength, kind]
    have set := @set_value b c opt.dflt ok (by rw [type, kind]; simp [isString]) (by rw [type, kind]; simp)
    rw [copied]
    refine ⟨set.1, by rw [type, kind]; simp [isString], set.2.2.trans ?_⟩
    rw [optValue, if_neg (by rw [kind]; decide), type]
  | string =>
    have copied : b.insertedValue opt = window opt.dflt 0 (b.setLength c.type) := by
      rw [type]
      simp only [insertedValue, setLength, kind]
    have set := @set_value b c opt.dflt ok (fun _ => ended kind) (by rw [type, kind]; simp)
    rw [copied]
    refine ⟨set.1, fun isStr => mem_append_left _ (set.2.1 isStr), set.2.2.trans ?_⟩
    rw [optValue, if_neg (by rw [kind]; decide), type]
  | netport =>
    obtain ⟨plain, short⟩ := b.portName_spec opt.dflt
    have copied : b.insertedValue opt = b.portName opt.dflt ++ [0] := by simp only [insertedValue, kind]
    rw [copied]
    refine ⟨?_, fun _ => by simp, ?_⟩
    · rw [length, kind, length_append, length_singleton]
      exact short
    · rw [type, kind, optValue, if_pos kind]
      exact takeWhile_string plain
  | script =>
    obtain ⟨empty, first⟩ := script kind
    have copied : b.insertedValue opt = [] := by simp only [insertedValue, kind]
    obtain ⟨rest, field⟩ := head?_eq_some_iff.mp first
    rw [copied]
    refine ⟨zero_le _, fun _ => by simp [field], ?_⟩
    rw [nil_append, length_nil, drop_zero, type, kind, field, optValue, if_neg (by rw [kind]; decide),
      kind, stored]
    have start : window opt.dflt 0 (b.configLength .script) =
        opt.dflt 0 :: window opt.dflt 1 (b.configLength .script - 1) := by
      have positive := b.script_pos
      have parts : b.configLength .script = 1 + (b.configLength .script - 1) := by
        simp only [configLength]
        omega
      conv_lhs => rw [parts, window_append]
      rfl
    rw [start, empty]
    simp [value]

end Values

section Adding
variable {f : Nat → UInt8}

theorem addString_blank (blank : ∀ i, p ≤ i → i < p + l.length → f i = 0) :
    addString f p l = overwrite f p (l ++ [0]) := by
  have zeros : window f p l.length = replicate l.length 0 := window_const blank
  have sum : zipWith (· + ·) (replicate l.length (0 : UInt8)) l = l := by
    clear blank zeros
    induction l with
    | nil => rfl
    | cons a l ih => rw [length_cons, replicate_succ, zipWith_cons_cons, ih, UInt8.zero_add]
  rw [addString, addBytes, zeros, sum, overwrite_append]

/-- The object an option becomes. -/
def newCell (b : Build) (opt : ConfigOption) : Cell :=
  put ⟨opt.type, opt.key, opt.enable, if opt.enableSense then 1 else 0, List.replicate (b.configLength opt.type) 0⟩
    (b.insertedValue opt)

theorem newCell_elen : (b.newCell opt).enableBytes.length = opt.elen := by
  unfold newCell enableBytes ConfigOption.elen put
  cases opt.enable with
  | none => rfl
  | some enable => simp

theorem putObject_eq (blank : Blank mem q (q + 4 + opt.len + opt.elen)) : b.putObject mem q opt =
      overwrite mem q (opt.header ++ (opt.key.bytes ++ [0]) ++ (b.newCell opt).enableBytes ++ b.insertedValue opt) := by
  have head : opt.header.length = 4 := rfl
  have keyed : addString (overwrite mem q opt.header) (q + 4) opt.key.bytes =
      overwrite mem q (opt.header ++ (opt.key.bytes ++ [0])) := by
    rw [addString_blank, ← head, overwrite_append]
    intro i low high
    rw [overwrite_of_ge (by rw [head]; exact low)]
    exact blank i (by omega) (by rw [ConfigOption.len]; omega)
  have length : (opt.header ++ (opt.key.bytes ++ [0])).length = 4 + opt.len := by
    rw [length_append, head, length_append, length_singleton, ConfigOption.len]
  have both : (opt.enable.elim (overwrite mem q (opt.header ++ (opt.key.bytes ++ [0]))) fun enable =>
      addString (overwrite mem q (opt.header ++ (opt.key.bytes ++ [0]))) (q + 4 + opt.len) enable.bytes) =
      overwrite mem q (opt.header ++ (opt.key.bytes ++ [0]) ++ (b.newCell opt).enableBytes) := by
    have bytes : (b.newCell opt).enableBytes = opt.enable.elim [] fun enable => enable.bytes ++ [0] := rfl
    rw [bytes]
    cases enable : opt.enable with
    | none => rw [Option.elim, Option.elim, append_nil]
    | some e =>
      rw [Option.elim, Option.elim]
      have room : opt.elen = e.bytes.length + 1 := by rw [ConfigOption.elen, enable]; rfl
      rw [addString_blank, show q + 4 + opt.len = q + (opt.header ++ (opt.key.bytes ++ [0])).length by
        rw [length]; omega, overwrite_append]
      intro i low high
      rw [overwrite_of_ge (by rw [length]; omega)]
      exact blank i (by omega) (by omega)
  have place : q + 4 + opt.len + opt.elen =
      q + (opt.header ++ (opt.key.bytes ++ [0]) ++ (b.newCell opt).enableBytes).length := by
    rw [length_append, length, newCell_elen]
    omega
  rw [putObject, keyed]
  refine (congrArg (fun m => b.flashConfigInsertValue m (q + 4 + opt.len + opt.elen) opt) (.trans ?_ both)).trans ?_
  · cases opt.enable <;> rfl
  · rw [flashConfigInsertValue, place, overwrite_append]

/-- An option that can become an object. -/
structure Addable (b : Build) (opt : ConfigOption) : Prop where
  filled : opt.key.bytes ≠ []
  key_short : opt.len ≤ 127
  enable_short : opt.elen ≤ 127
  string : opt.type = .string → 0 ∈ window opt.dflt 0 b.maxString
  script : opt.type = .script → opt.dflt 0 = 0

def blankCell (b : Build) (opt : ConfigOption) : Cell :=
  ⟨opt.type, opt.key, opt.enable, if opt.enableSense then 1 else 0, List.replicate (b.configLength opt.type) 0⟩

theorem configLength_pos (b : Build) (type : CfgType) : 0 < b.configLength type := by
  have string := b.string_pos
  have script := b.script_pos
  cases type <;> simp only [configLength] <;> omega

theorem blankCell_ok (addable : Addable b opt) : Ok b (b.blankCell opt) := by
  refine ⟨addable.filled, addable.key_short, ?_, length_replicate, fun _ => ?_⟩
  · exact (@newCell_elen b opt).trans_le addable.enable_short
  · exact mem_replicate.mpr ⟨Nat.pos_iff_ne_zero.mp (b.configLength_pos opt.type), rfl⟩

theorem newCell_spec (addable : Addable b opt) :
    Ok b (b.newCell opt) ∧ (b.newCell opt).item = ⟨opt.key, opt.type, opt.enable, b.optValue opt⟩ := by
  have zeros : (b.blankCell opt).field.head? = some 0 := by
    have positive := b.configLength_pos opt.type
    obtain ⟨k, length⟩ : ∃ k, b.configLength opt.type = k + 1 := ⟨_, (Nat.sub_add_cancel positive).symm⟩
    rw [blankCell, length]
    rfl
  obtain ⟨fits, ended, value⟩ := @insert_value b (b.blankCell opt) opt (blankCell_ok addable) rfl addable.string
    fun kind => ⟨addable.script kind, zeros⟩
  refine ⟨(blankCell_ok addable).put fits ended, ?_⟩
  rw [item, ← value]
  rfl

theorem newCell_size (addable : Addable b opt) :
    (b.newCell opt).size = 4 + opt.len + opt.elen + b.configLength opt.type := by
  rw [Cell.size, (newCell_spec addable).1.field_length, Cell.start, newCell_elen]
  rfl

theorem Held.putObject_outside {i : Nat} (held : Held b mem cs q) (addable : Addable b opt)
    (room : q + (b.newCell opt).size ≤ b.size) (outside : i < q ∨ q + (b.newCell opt).size ≤ i) :
    b.putObject mem q opt i = mem i := by
  have size := newCell_size addable
  rw [putObject_eq fun i low high => held.blank i low (by omega)]
  rcases outside with before | after
  · exact overwrite_of_lt before
  · have total := @bytes_length (b.newCell opt)
    have fits : (b.insertedValue opt).length ≤ b.configLength opt.type := by
      have ok := blankCell_ok addable
      have whole := (newCell_spec addable).1.field_length
      rw [newCell, Cell.put] at whole
      simp only [length_append, length_drop, length_replicate] at whole
      omega
    refine overwrite_of_ge ?_
    rw [length_append, length_append, newCell_elen, length_append, length_append,
      length_singleton, show opt.header.length = 4 from rfl]
    have length : opt.len = opt.key.bytes.length + 1 := rfl
    omega

theorem Held.append (held : Held b mem cs q) (addable : Addable b opt) (fresh : ∀ c ∈ cs, c.key.bytes ≠ opt.key.bytes)
    (room : q + (b.newCell opt).size ≤ b.size) :
    Held b (b.putObject mem q opt) (cs ++ [b.newCell opt]) (q + (b.newCell opt).size) := by
  have same (i : Nat) (outside : i < q ∨ q + (b.newCell opt).size ≤ i) : b.putObject mem q opt i = mem i :=
    held.putObject_outside addable room outside
  obtain ⟨chain, cells, distinct, inside, blank⟩ := held
  have size := newCell_size addable
  have ok := (newCell_spec addable).1
  have equal : b.putObject mem q opt =
      overwrite mem q (opt.header ++ (opt.key.bytes ++ [0]) ++ (b.newCell opt).enableBytes ++ b.insertedValue opt) :=
    putObject_eq fun i low high => blank i low (by omega)
  have header : opt.header = (b.newCell opt).head := by
    rw [Cell.head, newCell_elen]
    rfl
  have split : (b.newCell opt).bytes = (opt.header ++ (opt.key.bytes ++ [0]) ++ (b.newCell opt).enableBytes ++
      b.insertedValue opt) ++ (replicate (b.configLength opt.type) 0).drop (b.insertedValue opt).length := by
    rw [header, append_assoc _ (b.insertedValue opt)]
    rfl
  have total := @bytes_length (b.newCell opt)
  have lies : Lies (b.putObject mem q opt) q (b.newCell opt).bytes := by
    rw [equal, split]
    refine lies_append.mpr ⟨lies_overwrite, ?_⟩
    rw [drop_replicate]
    refine lies_replicate fun i low high => ?_
    rw [overwrite_of_ge low]
    refine blank i (by omega) ?_
    rw [split, length_append, drop_replicate, length_replicate] at total
    omega
  refine ⟨(chain.congr fun i _ high => same i (.inl high)).append lies, ?_, ?_, room, fun i low high => ?_⟩
  · intro c member
    rcases mem_append.mp member with old | new
    · exact cells c old
    · rw [mem_singleton.mp new]
      exact ok
  · rw [map_append, nodup_append]
    refine ⟨distinct, nodup_singleton _, ?_⟩
    intro a member k new
    obtain ⟨c, old, rfl⟩ := mem_map.mp member
    rw [mem_singleton.mp new]
    exact fresh c old
  · rw [same i (.inr low)]
    exact blank i (by omega) high

end Adding

section Editing
variable {start n : Nat} {mem' : Nat → UInt8} {ret : CfgRet}

theorem overwrite_twice {f : Nat → UInt8} (some : l ≠ []) : overwrite (overwrite f p [0]) p l = overwrite f p l := by
  have positive := length_pos_iff.mpr some
  funext i
  by_cases low : i < p
  · rw [overwrite_of_lt low, overwrite_of_lt low, overwrite_of_lt low]
  · by_cases high : i < p + l.length
    · rw [overwrite_inside (g := f) (by omega) high, overwrite_inside (g := f) (by omega) high]
    · rw [overwrite_of_ge (by omega), overwrite_of_ge (by simp; omega), overwrite_of_ge (by omega)]

theorem editScript_changed {lines : List Typed} (room : n ≤ b.maxScript)
    (run : b.editScript start mem n lines = (mem', .changed)) :
    mem' = overwrite mem (start + n) (scriptText lines ++ [0]) ∧ n + (scriptText lines).length ≤ b.maxScript := by
  induction lines generalizing mem n with
  | nil => simp [editScript] at run
  | cons typed rest ih =>
    cases typed with
    | abort => simp [editScript] at run
    | line text =>
      rw [editScript] at run
      rw [scriptText]
      split at run
      · next empty =>
        rw [if_pos empty]
        exact ⟨(congrArg Prod.fst run).symm, room⟩
      · next filled =>
        rw [if_neg filled]
        split at run
        · cases run
        · next fits =>
          obtain ⟨written, bound⟩ := ih (by omega) run
          have length : (text.bytes ++ [10]).length = text.bytes.length + 1 := by simp
          refine ⟨?_, ?_⟩
          · rw [written, overwrite_twice (by simp), ← Nat.add_assoc, ← length, overwrite_append,
              append_assoc (text.bytes ++ [10])]
          · rw [length_append, length]
            omega

theorem scriptText_plain (lines : List Typed) : 0 ∉ scriptText lines := by
  induction lines with
  | nil => simp [scriptText]
  | cons typed rest ih =>
    cases typed with
    | abort => simp [scriptText]
    | line text =>
      rw [scriptText]
      split
      · simp
      · simp only [mem_append, not_or]
        exact ⟨⟨text.plain, by simp⟩, ih⟩

theorem editScript_ret {lines : List Typed} :
    (b.editScript start mem n lines).2 = .changed ∨ (b.editScript start mem n lines).2 = .abort := by
  induction lines generalizing mem n with
  | nil => exact .inr rfl
  | cons typed rest ih =>
    cases typed with
    | abort => exact .inr rfl
    | line text =>
      rw [editScript]
      split
      · exact .inl rfl
      · split
        · exact .inr rfl
        · exact ih

theorem parseLine_value {text : CString} {rest : List Typed} (ok : Ok b c) (kind : c.type ≠ .script)
    (parsed : b.parseLine c.type text.bytes = some l) : l.length ≤ c.field.length ∧
      (isString c.type → 0 ∈ l ++ c.field.drop l.length) ∧
      value c.type (l ++ c.field.drop l.length) = b.typedValue c.type (.line text :: rest) := by
  have length := ok.field_length
  have four (n : BitVec 32) : (longBytes n).length = 4 := by simp [longBytes]
  -- a value of four bytes takes up the whole field
  have whole {α : Type} {v : Option α} {f : α → BitVec 32} (field : c.field.length = 4)
      (parsed : v.map (fun a => longBytes (f a)) = some l) :
      l.length ≤ c.field.length ∧ l ++ c.field.drop l.length = (v.map fun a => longBytes (f a)).getD [] := by
    rw [parsed]
    obtain ⟨n, -, rfl⟩ := Option.map_eq_some_iff.mp parsed
    refine ⟨by rw [four, field], ?_⟩
    rw [drop_of_length_le (by rw [four, field]), append_nil]
    rfl
  cases type : c.type with
  | script => exact absurd type kind
  | bool =>
    rw [type] at length parsed
    obtain ⟨fits, joined⟩ := whole length parsed
    exact ⟨fits, by simp [isString], joined⟩
  | int =>
    rw [type] at length parsed
    obtain ⟨fits, joined⟩ := whole length parsed
    exact ⟨fits, by simp [isString], joined⟩
  | ip =>
    rw [type] at length parsed
    obtain ⟨fits, joined⟩ := whole length parsed
    exact ⟨fits, by simp [isString], joined⟩
  | esa =>
    rw [type] at length parsed
    have six := b.esa_length _ _ parsed
    refine ⟨?_, by simp [isString], ?_⟩
    · rw [length, six]
      simp [configLength]
    · exact (take_left' six).trans (congrArg (·.getD []) parsed).symm
  | string =>
    rw [type] at length parsed
    simp only [parseLine] at parsed
    split at parsed
    · cases parsed
    · next short =>
      cases parsed
      refine ⟨?_, fun _ => by simp, takeWhile_string text.plain⟩
      rw [length, length_append, length_singleton]
      exact Nat.lt_of_not_le short
  | netport =>
    rw [type] at length parsed
    simp only [parseLine] at parsed
    split at parsed
    · cases parsed
    · next short =>
      cases parsed
      refine ⟨?_, fun _ => by simp, takeWhile_string text.plain⟩
      rw [length, length_append, length_singleton]
      exact Nat.lt_of_not_le fun long => short (.inl long)

theorem getConfig_cases {edit : Edit} (lies : Lies cfg.mem p c.bytes) (ok : Ok b c)
    (script : c.type = .script → (scriptText edit.lines).length ≠ b.maxScript) :
    (b.getConfig cfg p edit).2 = .abort ∨
      (b.getConfig cfg p edit).2 ≠ .changed ∧ (b.getConfig cfg p edit).1 = cfg.mem ∨
      (b.getConfig cfg p edit).2 = .changed ∧ ∃ l, (b.getConfig cfg p edit).1 = overwrite cfg.mem (p + c.start) l ∧
        l.length ≤ c.field.length ∧ (isString c.type → 0 ∈ l ++ c.field.drop l.length) ∧
        value c.type (l ++ c.field.drop l.length) = b.typedValue c.type edit.lines := by
  have type : CfgType.ofCode (cfg.mem p) = some c.type := by rw [(head_at lies).1, CfgType.ofCode_code]
  unfold getConfig
  dsimp only
  rw [type, objectValue_at lies ok]
  split
  · exact .inr (.inl ⟨by simp, rfl⟩)
  · split
    · next kind =>
      have kind : c.type = .script := Option.some.inj kind
      rcases @editScript_ret b cfg.mem (p + c.start) 0 edit.lines with changed | abort
      · refine .inr (.inr ⟨changed, scriptText edit.lines ++ [0], ?_⟩)
        obtain ⟨written, bound⟩ := @editScript_changed b cfg.mem (p + c.start) 0 _ edit.lines (zero_le _)
          (Prod.ext rfl changed)
        have length := ok.field_length
        have differs := script kind
        refine ⟨written, ?_, fun _ => by simp, ?_⟩
        · rw [length, kind, length_append, length_singleton]
          simp only [configLength]
          omega
        · rw [kind, typedValue]
          exact takeWhile_string (scriptText_plain _)
      · exact .inl abort
    · next kind =>
      have kind : c.type ≠ .script := fun same => kind (congrArg some same)
      split
      · next text rest lines =>
        split
        · exact .inr (.inl ⟨by simp, rfl⟩)
        · split
          · exact .inr (.inl ⟨by simp, rfl⟩)
          · split
            · exact .inr (.inl ⟨by simp, rfl⟩)
            · split
              · exact .inr (.inl ⟨by simp, rfl⟩)
              · dsimp only
                split
                · exact .inr (.inl ⟨by simp, rfl⟩)
                · next l parsed =>
                  split
                  · exact .inr (.inl ⟨by simp, rfl⟩)
                  · refine .inr (.inr ⟨rfl, l, rfl, ?_⟩)
                    rw [lines]
                    exact parseLine_value ok kind parsed
      · exact .inl rfl

end Editing

end Build

end Ecos.Redboot
