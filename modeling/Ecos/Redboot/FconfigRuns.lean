import Ecos.Redboot.FconfigSafety

namespace Ecos.Redboot
open List Function

/-- The configuration, and beside it the database that its users mean. -/
structure Store where
  cfg : Config
  db : List Item

/-- The operations that change the database. -/
inductive CfgOp
  | add (opt : ConfigOption) (update : Bool)
  | set (key : CString) (val : Nat → UInt8) (type : CfgType)
  | fconfig (edits : List Edit)

namespace Build
variable {b : Build} {mem : Nat → UInt8} {p q : Nat} {c d : Cell} {cs : List Cell} {key : CString} {l : List UInt8}
  {opt : ConfigOption} {cfg : Config} {s : Store} {e : CfgOp} {update : Bool}

open Cell

/-- The entry an option becomes. -/
def newItem (b : Build) (opt : ConfigOption) : Item := ⟨opt.key, opt.type, opt.enable, b.optValue opt⟩

/-- The database with the value of an option, under a key that is there or a new one. -/
def addItem (b : Build) (db : List Item) (opt : ConfigOption) : List Item :=
  if db.any fun item => item.key = opt.key then putValue db opt.key (b.optValue opt) else db ++ [b.newItem opt]

/-- The database after an edit that was reported as a change. -/
def putTyped (b : Build) (db : List Item) (edit : Edit × CfgRet) : List Item :=
  if edit.2 = .changed then
    db.map fun item => if item.key = edit.1.key then { item with value := b.typedValue item.type edit.1.lines } else item
  else db

def act (b : Build) (s : Store) : CfgOp → Store
  | .add opt update =>
    match b.flashAddConfig s.cfg opt update with
    | some (cfg, true) => ⟨cfg, b.addItem s.db opt⟩
    | some (cfg, false) => ⟨cfg, s.db⟩
    | none => s
  | .set key val type =>
    match b.flashSetConfig s.cfg key val type with
    | (cfg, true) => ⟨cfg, putValue s.db key (b.stored type val)⟩
    | (cfg, false) => ⟨cfg, s.db⟩
  | .fconfig edits => ⟨(b.doFlashConfig s.cfg edits).1, (b.doFlashConfig s.cfg edits).2.foldl b.putTyped s.db⟩

/-- The keys an operation is about. -/
def keys : CfgOp → List CString
  | .add opt _ => [opt.key]
  | .set key _ _ => [key]
  | .fconfig edits => edits.map Edit.key

/-- Strings that end before `MAX_STRING_LENGTH`, scripts that end before `MAX_SCRIPT_LENGTH`. -/
def Valid (b : Build) : CfgOp → Prop
  | .add opt _ => (opt.type = .string → 0 ∈ window opt.dflt 0 b.maxString) ∧
      (opt.type = .script → 0 ∈ window opt.dflt 0 b.maxScript)
  | .set _ val type => (type = .string ∨ type = .netport → 0 ∈ window val 0 b.maxString) ∧
      (type = .script → 0 ∈ window val 0 b.maxScript)
  | .fconfig _ => True

/-- Where the code keeps to the map: the lengths of added keys fit into signed bytes, an option that is there keeps its
type, a script is added empty and only once, a script that is set ends before `MAX_STRING_LENGTH`, and a typed script
leaves room for its end. -/
def Safe (b : Build) (s : Store) : CfgOp → Prop
  | .add opt _ => Sought b s.cfg.mem opt.key ∧ opt.len ≤ 127 ∧ opt.elen ≤ 127 ∧ (opt.type = .script → opt.dflt 0 = 0) ∧
      ∀ item ∈ s.db, item.key = opt.key → item.type = opt.type ∧ opt.type ≠ .script
  | .set key val type => Sought b s.cfg.mem key ∧
      (type = .script → 0 ∈ window val 0 b.maxString ∧ b.maxString ≤ b.maxScript)
  | .fconfig edits => ∀ edit ∈ edits, ∀ item ∈ s.db, item.key = edit.key → item.type = .script →
      (scriptText edit.lines).length ≠ b.maxScript

/-- What `config_init` leaves of a table of different keys that fit. -/
def Starts (b : Build) (s : Store) : Prop := ∃ cfg table, (table.map fun opt => opt.key.bytes).Nodup ∧
  (∀ opt ∈ table, Addable b opt) ∧ (table.map fun opt => (b.newCell opt).size).sum ≤ b.size ∧
    s.cfg = (b.configInit cfg table).getD cfg ∧ s.db = table.map b.newItem

/-- The memory holds the database. -/
def Rep (b : Build) (s : Store) : Prop := s.cfg.ok = true ∧ ∃ cs q, Held b s.cfg.mem cs q ∧ cs.map item = s.db

theorem Held.add_new (held : Held b cfg.mem cs q) (addable : Addable b opt)
    (missing : b.flashLookupConfig cfg opt.key = none) : b.flashAddConfig cfg opt update =
      some (if q + (b.newCell opt).size ≤ b.size then
        ({ cfg with mem := b.updated (b.putObject cfg.mem q opt) update }, true) else (cfg, false)) := by
  have size := newCell_size addable
  rw [flashAddConfig, missing]
  rw [findEmpty_chain held.chain held.cells held.inside held.blank (by omega), Option.map_some]
  by_cases below : q < b.size
  · rw [if_pos below]
    dsimp only
    by_cases room : q + (b.newCell opt).size ≤ b.size
    · rw [if_pos room, if_neg (by omega)]
    · rw [if_neg room, if_pos (by omega)]
  · rw [if_neg below, if_neg (by omega)]

theorem initOptions_held {table : List ConfigOption} (held : Held b cfg.mem cs q)
    (zeros : ∀ j < 4, cfg.mem (b.size + j) = 0) (addable : ∀ opt ∈ table, Addable b opt)
    (distinct : (table.map fun opt => opt.key.bytes).Nodup)
    (fresh : ∀ opt ∈ table, ∀ c ∈ cs, c.key.bytes ≠ opt.key.bytes)
    (room : q + (table.map fun opt => (b.newCell opt).size).sum ≤ b.size) :
    ∃ mem, b.initOptions cfg table = some ⟨true, mem⟩ ∧ ∃ q, Held b mem (cs ++ table.map b.newCell) q := by
  induction table generalizing cfg cs q with
  | nil => exact ⟨cfg.mem, rfl, q, by simpa using held⟩
  | cons opt table ih =>
    obtain ⟨first, distinct⟩ := nodup_cons.mp distinct
    have addable' := addable opt mem_cons_self
    rw [map_cons, sum_cons] at room
    have missing : b.flashLookupConfig cfg opt.key = none := by
      by_cases ok : cfg.ok
      · have unlike : Unlike b cfg.mem opt.key.bytes := by
          intro j near
          cases bytes : opt.key.bytes with
          | nil => exact absurd bytes addable'.filled
          | cons k ks =>
            rw [strEq, zeros j near]
            have differs : (0 : UInt8) ≠ k := fun same => opt.key.plain (by simp [bytes, same])
            simp [differs]
        rw [held.lookup ok ⟨addable'.filled, unlike⟩]
        exact place_none.mpr (fresh opt mem_cons_self)
      · rw [flashLookupConfig, if_neg ok]
    have held' := held.append addable' (fresh opt mem_cons_self) (by omega)
    have zeros' : ∀ j < 4, b.putObject cfg.mem q opt (b.size + j) = 0 := by
      intro j near
      rw [held.putObject_outside addable' (by omega) (.inr (by omega))]
      exact zeros j near
    obtain ⟨mem, run, last, whole⟩ := @ih (q + (b.newCell opt).size) (cs ++ [b.newCell opt])
      ⟨cfg.ok, b.putObject cfg.mem q opt⟩ held' zeros' (fun o member => addable o (mem_cons_of_mem _ member)) distinct
      (by
        intro o member c old
        rcases mem_append.mp old with old | new
        · exact fresh o (mem_cons_of_mem _ member) c old
        · rw [mem_singleton.mp new]
          exact fun same => first (mem_map.mpr ⟨o, member, same.symm⟩)) (by omega)
    refine ⟨mem, ?_, last, by simpa using whole⟩
    rw [initOptions, held.add_new addable' missing, if_pos (by omega)]
    exact run

theorem Starts.rep (starts : Starts b s) : Rep b s := by
  obtain ⟨cfg, table, distinct, addable, room, cfg', db⟩ := starts
  have clear (i : Nat) (low : i < b.size + 8) : overwrite cfg.mem 0 (replicate (b.size + 8) 0) i = 0 := by
    rw [overwrite, if_neg (by omega), getD_replicate _ (by omega)]
  have held : Held b (overwrite cfg.mem 0 (replicate (b.size + 8) 0)) [] 0 := by
    refine ⟨rfl, by simp, nodup_nil, Nat.zero_le _, fun i _ high => clear i (by omega)⟩
  obtain ⟨mem, run, last, whole⟩ := @initOptions_held b 0 []
    { cfg with mem := overwrite cfg.mem 0 (replicate (b.size + 8) 0) } table held
    (fun j near => clear _ (by omega)) addable distinct (by simp) (by omega)
  rw [configInit, run, Option.getD_some] at cfg'
  refine ⟨by rw [cfg'], _, last, by rw [cfg']; exact whole, ?_⟩
  rw [db, nil_append, map_map]
  exact map_congr_left fun opt member => (newCell_spec (addable opt member)).2

theorem Rep.find (held : Held b cfg.mem cs q) (ok : cfg.ok) (sought : Sought b cfg.mem key) :
    b.flashLookupConfig cfg key = none ∧ (∀ c ∈ cs, c.key ≠ key) ∨
      ∃ p, ∃ c ∈ cs, b.flashLookupConfig cfg key = some p ∧ c.key = key ∧ place key.bytes cs 0 = some p ∧
        Lies cfg.mem p c.bytes := by
  rw [held.lookup ok sought]
  cases found : place key.bytes cs 0 with
  | none =>
    refine .inl ⟨rfl, fun c member same => ?_⟩
    exact place_none.mp found c member (congrArg CString.bytes same)
  | some p =>
    obtain ⟨-, c, member, same, lies, -⟩ := held.chain.place_some found
    exact .inr ⟨p, c, member, rfl, CString.ext same, rfl, lies⟩

theorem any_item : (cs.map item).any (fun i => i.key = key) = true ↔ ∃ c ∈ cs, c.key = key := by
  rw [any_map, any_eq_true]
  exact exists_congr fun c => and_congr_right fun _ => decide_eq_true_iff

theorem Rep.add (rep : Rep b s) (valid : Valid b (.add opt update)) (safe : Safe b s (.add opt update)) :
    Rep b (b.act s (.add opt update)) := by
  obtain ⟨ok, cs, q, held, items⟩ := rep
  obtain ⟨sought, short, shortE, script, types⟩ := safe
  have addable : Addable b opt := ⟨sought.filled, short, shortE, valid.1, script⟩
  rw [act]
  rcases Rep.find held ok sought with ⟨missing, fresh⟩ | ⟨p, c, member, found, same, spot, lies⟩
  · rw [held.add_new addable missing]
    by_cases room : q + (b.newCell opt).size ≤ b.size
    · rw [if_pos room]
      have held' := held.append addable (fun c member equal => fresh c member (CString.ext equal)) room
      refine ⟨ok, _, _, held'.updated, ?_⟩
      rw [addItem, if_neg, map_append, items]
      · exact congrArg (s.db ++ [·]) (newCell_spec addable).2
      · rw [← items, any_item]
        exact fun ⟨c, member, same⟩ => fresh c member same
    · rw [if_neg room]
      exact ⟨ok, cs, q, held, items⟩
  · have okc := held.cells c member
    obtain ⟨type, notScript⟩ := types c.item (by rw [← items]; exact mem_map_of_mem member) same
    obtain ⟨fits, ended, value⟩ := @insert_value b c opt okc type valid.1 fun kind => absurd kind notScript
    have bytes : c.key.bytes = opt.key.bytes := congrArg CString.bytes same
    rw [flashAddConfig, found]
    dsimp only
    rw [flashConfigInsertValue, objectValue_at lies okc]
    refine ⟨ok, _, q, (held.put spot member bytes fits ended).updated, ?_⟩
    rw [items_put held member bytes, value, items, addItem, if_pos]
    rw [← items, any_item]
    exact ⟨c, member, same⟩

theorem Rep.set {val : Nat → UInt8} {type : CfgType} (rep : Rep b s) (valid : Valid b (.set key val type))
    (safe : Safe b s (.set key val type)) : Rep b (b.act s (.set key val type)) := by
  obtain ⟨ok, cs, q, held, items⟩ := rep
  obtain ⟨sought, script⟩ := safe
  rw [act, flashSetConfig, if_pos ok]
  rcases Rep.find held ok sought with ⟨missing, fresh⟩ | ⟨p, c, member, found, same, spot, lies⟩
  · rw [missing]
    exact ⟨ok, cs, q, held, items⟩
  · have okc := held.cells c member
    rw [found]
    dsimp only
    rw [(head_at lies).1, objectValue_at lies okc]
    by_cases equal : c.type.code = type.code
    · obtain rfl := CfgType.code_inj equal
      rw [if_pos equal]
      have bytes : c.key.bytes = key.bytes := congrArg CString.bytes same
      have ended : isString c.type → 0 ∈ window val 0 b.maxString := by
        intro isStr
        cases kind : c.type with
        | string => exact valid.1 (.inl kind)
        | netport => exact valid.1 (.inr kind)
        | script => exact (script kind).1
        | _ => simp [kind, isString] at isStr
      obtain ⟨fits, zero, value⟩ := @set_value b c val okc ended fun kind => (script kind).2
      refine ⟨ok, _, q, (held.put spot member bytes fits fun isStr => mem_append_left _ (zero isStr)).written, ?_⟩
      rw [items_put held member bytes, value, items]
    · rw [if_neg equal]
      exact ⟨ok, cs, q, held, items⟩

theorem putTyped_changed {edit : Edit} (held : Held b mem cs q) (member : c ∈ cs) (same : c.key = edit.key) :
    putValue (cs.map item) edit.key (b.typedValue c.type edit.lines) = b.putTyped (cs.map item) (edit, .changed) := by
  rw [putTyped, if_pos rfl, putValue, map_map, map_map]
  refine map_congr_left fun d inside => ?_
  rw [comp_apply, comp_apply]
  by_cases equal : d.item.key = edit.key
  · have bytes : d.key.bytes = c.key.bytes := congrArg CString.bytes ((show d.key = edit.key from equal).trans same.symm)
    obtain rfl := held.unique inside member bytes
    rw [if_pos equal, if_pos equal]
    rfl
  · rw [if_neg equal, if_neg equal]

theorem editAll_held {edits : List Edit} {log : List (Edit × CfgRet)} {cfg' : Config} (held : Held b cfg.mem cs q)
    (safe : ∀ edit ∈ edits, ∀ c ∈ cs, c.key = edit.key → c.type = .script →
      (scriptText edit.lines).length ≠ b.maxScript)
    (run : b.editAll cfg edits = some (cfg', log)) :
    cfg'.ok = cfg.ok ∧ ∃ cs', Held b cfg'.mem cs' q ∧ cs'.map item = log.foldl b.putTyped (cs.map item) := by
  induction edits generalizing cfg cs log with
  | nil =>
    cases run
    exact ⟨rfl, cs, held, rfl⟩
  | cons edit edits ih =>
    have later : ∀ edit ∈ edits, ∀ c ∈ cs, c.key = edit.key → c.type = .script →
        (scriptText edit.lines).length ≠ b.maxScript := fun e inside => safe e (mem_cons_of_mem _ inside)
    rw [editAll, findEntry_chain held.chain held.cells held.inside held.blank edit.key.plain (by omega)] at run
    cases found : place edit.key.bytes cs 0 with
    | none =>
      rw [found] at run
      exact ih held later run
    | some p =>
      rw [found] at run
      dsimp only at run
      obtain ⟨-, c, member, bytes, lies, -⟩ := held.chain.place_some found
      have same : c.key = edit.key := CString.ext bytes
      have okc := held.cells c member
      -- the memory after this edit, and the database beside it
      have after : (b.getConfig cfg p edit).2 ≠ .abort → ∃ cs', Held b (b.getConfig cfg p edit).1 cs' q ∧
          cs'.map item = b.putTyped (cs.map item) (edit, (b.getConfig cfg p edit).2) ∧
          ∀ e ∈ edits, ∀ c ∈ cs', c.key = e.key → c.type = .script → (scriptText e.lines).length ≠ b.maxScript := by
        intro going
        rcases getConfig_cases lies okc (safe edit mem_cons_self c member same) with
          abort | ⟨quiet, kept⟩ | ⟨changed, l, written, fits, ended, value⟩
        · exact absurd abort going
        · refine ⟨cs, by rw [kept]; exact held, ?_, later⟩
          rw [putTyped, if_neg quiet]
        · refine ⟨putAt edit.key.bytes l cs, by rw [written]; exact held.put found member bytes fits ended, ?_, ?_⟩
          · rw [items_put held member bytes, value, putTyped_changed held member same, changed]
          · intro e inside d put_ sameD kind
            obtain ⟨d, old, rfl⟩ := mem_map.mp put_
            by_cases hit : d.key.bytes = edit.key.bytes
            · rw [if_pos hit] at sameD kind
              exact later e inside d old sameD kind
            · rw [if_neg hit] at sameD kind
              exact later e inside d old sameD kind
      cases ret : (b.getConfig cfg p edit).2 with
      | abort => simp [ret] at run
      | done =>
        rw [ret] at run after
        cases run
        obtain ⟨cs', held', items, -⟩ := after (by decide)
        exact ⟨rfl, cs', held', items⟩
      | _ =>
        rw [ret] at run after
        obtain ⟨cs', held', items, later'⟩ := after (by decide)
        obtain ⟨r, rest, equal⟩ := Option.map_eq_some_iff.mp run
        cases equal
        obtain ⟨ok, cs'', held'', items'⟩ := @ih cs' ⟨cfg.ok, (b.getConfig cfg p edit).1⟩ r.2 held' later' rest
        refine ⟨ok, cs'', held'', ?_⟩
        rw [items', items]
        rfl

theorem Rep.fconfig {edits : List Edit} (rep : Rep b s) (safe : Safe b s (.fconfig edits)) :
    Rep b (b.act s (.fconfig edits)) := by
  obtain ⟨ok, cs, q, held, items⟩ := rep
  rw [act, doFlashConfig]
  cases run : b.editAll s.cfg edits with
  | none => exact ⟨ok, cs, q, held, items⟩
  | some r =>
    have safe' : ∀ edit ∈ edits, ∀ c ∈ cs, c.key = edit.key → c.type = .script →
        (scriptText edit.lines).length ≠ b.maxScript := fun edit member c inside same kind =>
      safe edit member c.item (by rw [← items]; exact mem_map_of_mem inside) same kind
    obtain ⟨ok', cs', held', items'⟩ := editAll_held held safe' (show _ = some (r.1, r.2) from run)
    dsimp only
    rw [items] at items'
    split
    · exact ⟨ok'.trans ok, cs', q, held'.written, items'⟩
    · exact ⟨ok'.trans ok, cs', q, held', items'⟩

theorem Rep.act (rep : Rep b s) (valid : Valid b e) (safe : Safe b s e) : Rep b (b.act s e) := by
  cases e with
  | add opt update => exact rep.add valid safe
  | set key val type => exact rep.set valid safe
  | fconfig edits => exact rep.fconfig safe

/-- What `flash_get_config` gives for an entry: its bytes, or a pointer to its string. -/
def Gives (mem : Nat → UInt8) (item : Item) (got : Option Got) : Prop :=
  if isString item.type then ∃ p, got = some (.pointer p) ∧ strEq mem p item.value = true
  else got = some (.bytes item.value)

/-- `flash_get_config` answers with the entry of the key. -/
def Answers (b : Build) (s : Store) (key : CString) (type : CfgType) : Prop :=
  match s.db.find? fun item => item.key = key with
  | none => b.flashGetConfig s.cfg key type = none
  | some item =>
    if item.type = type then Gives s.cfg.mem item (b.flashGetConfig s.cfg key type)
    else b.flashGetConfig s.cfg key type = some .wrongType

theorem takeWhile_split (ended : 0 ∈ l) : ∃ r, l = l.takeWhile (· ≠ 0) ++ [0] ++ r := by
  induction l with
  | nil => simp at ended
  | cons a l ih =>
    by_cases zero : a = 0
    · exact ⟨l, by simp [zero]⟩
    · obtain ⟨r, rest⟩ := ih ((mem_cons.mp ended).resolve_left fun same => zero same.symm)
      refine ⟨r, ?_⟩
      rw [takeWhile_cons_of_pos (by simpa using zero)]
      conv_lhs => rw [rest]
      rfl

theorem gives_value (lies : Lies cfg.mem p c.bytes) (ok : Ok b c) : Gives cfg.mem c.item (some (match c.type with
      | .bool | .int | .ip => Got.bytes (window cfg.mem (objectValue cfg.mem p) 4)
      | .esa => .bytes (window cfg.mem (objectValue cfg.mem p) 6)
      | .netport | .string | .script => .pointer (objectValue cfg.mem p))) := by
  have field := field_at lies
  have length := ok.field_length
  have ended := ok.ended
  rw [objectValue_at lies ok]
  have text (kind : isString c.type) : strEq cfg.mem (p + c.start) (c.field.takeWhile (· ≠ 0)) = true := by
    obtain ⟨r, split⟩ := takeWhile_split (ended kind)
    rw [split] at field
    exact strEq_iff.mpr (lies_append.mp field).1
  unfold Lies at field
  rw [length] at field
  unfold Gives item
  dsimp only
  cases type : c.type with
  | bool | int | ip =>
    rw [type] at field
    rw [if_neg (by decide)]
    exact congrArg (fun l => some (Got.bytes l)) field
  | esa =>
    rw [type] at field
    rw [if_neg (by decide)]
    refine congrArg (fun l => some (Got.bytes l)) ?_
    have six := congrArg (take 6) field
    rw [window_take] at six
    exact six
  | string | script | netport =>
    rw [if_pos (by decide)]
    exact ⟨_, rfl, text (by rw [type]; rfl)⟩

theorem find_item (held : Held b mem cs q) (member : c ∈ cs) (same : c.key = key) :
    (cs.map item).find? (fun i => i.key = key) = some c.item := by
  cases found : (cs.map item).find? fun i => i.key = key with
  | none =>
    have none := find?_eq_none.mp found c.item (mem_map_of_mem member)
    exact absurd (decide_eq_true (show c.item.key = key from same)) none
  | some i =>
    have equal : i.key = key := by simpa using find?_some found
    obtain ⟨d, inside, rfl⟩ := mem_map.mp (mem_of_find?_eq_some found)
    have bytes : d.key.bytes = c.key.bytes := congrArg CString.bytes ((show d.key = key from equal).trans same.symm)
    rw [held.unique inside member bytes]

theorem Rep.answers (rep : Rep b s) (sought : Sought b s.cfg.mem key) (type : CfgType) : Answers b s key type := by
  obtain ⟨ok, cs, q, held, items⟩ := rep
  unfold Answers
  rw [flashGetConfig, if_pos ok, ← items]
  rcases Rep.find held ok sought with ⟨missing, fresh⟩ | ⟨p, c, member, found, same, spot, lies⟩
  · have none : (cs.map item).find? (fun i => i.key = key) = none := by
      rw [find?_eq_none]
      intro i inside equal
      obtain ⟨c, member, rfl⟩ := mem_map.mp inside
      exact fresh c member (of_decide_eq_true equal)
    rw [none, missing]
    rfl
  · rw [find_item held member same, found, Option.map_some]
    dsimp only
    rw [(head_at lies).1]
    by_cases equal : c.type = type
    · subst equal
      rw [if_pos (show c.item.type = c.type from rfl), if_pos rfl]
      exact gives_value lies (held.cells c member)
    · rw [if_neg (show ¬ c.item.type = type from equal), if_neg fun codes => equal (CfgType.code_inj codes)]

/-- The bytes an entry takes. -/
def itemSize (b : Build) (item : Item) : Nat :=
  4 + (item.key.bytes.length + 1) + (item.enable.elim 0 fun enable => enable.bytes.length + 1) + b.configLength item.type

theorem itemSize_item (ok : Ok b c) : b.itemSize c.item = c.size := by
  have elen : (c.enable.elim 0 fun enable => enable.bytes.length + 1) = c.enableBytes.length := by
    unfold enableBytes
    cases c.enable with
    | none => rfl
    | some enable => simp
  rw [itemSize, Cell.size, Cell.start, ok.field_length, ← elen]
  rfl

theorem chain_total {p : Nat} (chain : Chain mem p cs q) (ok : ∀ c ∈ cs, Ok b c) :
    q = p + ((cs.map item).map b.itemSize).sum := by
  induction cs generalizing p with
  | nil => exact chain.symm
  | cons c cs ih =>
    have rest := ih chain.2 fun d member => ok d (mem_cons_of_mem _ member)
    rw [map_cons, map_cons, sum_cons, itemSize_item (ok c mem_cons_self)]
    omega

theorem Rep.add_done (rep : Rep b s) (valid : Valid b (.add opt update)) (safe : Safe b s (.add opt update)) :
    ∃ cfg done, b.flashAddConfig s.cfg opt update = some (cfg, done) ∧
      (done = true ↔ (∃ item ∈ s.db, item.key = opt.key) ∨
        (s.db.map b.itemSize).sum + b.itemSize (b.newItem opt) ≤ b.size) := by
  obtain ⟨ok, cs, q, held, items⟩ := rep
  obtain ⟨sought, short, shortE, script, types⟩ := safe
  have addable : Addable b opt := ⟨sought.filled, short, shortE, valid.1, script⟩
  obtain ⟨okNew, itemNew⟩ := newCell_spec addable
  have total := chain_total held.chain held.cells
  have size : b.itemSize (b.newItem opt) = (b.newCell opt).size := by
    rw [← itemSize_item okNew, itemNew]
    rfl
  rw [items, Nat.zero_add] at total
  rcases Rep.find held ok sought with ⟨missing, fresh⟩ | ⟨p, c, member, found, same, spot, lies⟩
  · rw [held.add_new addable missing, size, ← total]
    have absent : ¬ ∃ item ∈ s.db, item.key = opt.key := by
      rintro ⟨i, inside, equal⟩
      rw [← items] at inside
      obtain ⟨c, member, rfl⟩ := mem_map.mp inside
      exact fresh c member equal
    by_cases room : q + (b.newCell opt).size ≤ b.size
    · rw [if_pos room]
      exact ⟨_, true, rfl, iff_of_true rfl (.inr room)⟩
    · rw [if_neg room]
      exact ⟨_, false, rfl, iff_of_false Bool.false_ne_true (not_or.mpr ⟨absent, room⟩)⟩
  · rw [flashAddConfig, found]
    refine ⟨_, true, rfl, iff_of_true rfl (.inl ⟨c.item, ?_, same⟩)⟩
    rw [← items]
    exact mem_map_of_mem member

theorem Rep.parses (rep : Rep b s) : ∃ ps, b.walk s.cfg.mem (b.size + 1) 0 = some ps ∧
    (ps.map fun p => (CfgType.ofCode (s.cfg.mem p), b.stringAt s.cfg.mem (p + 4))) =
      s.db.map fun item => (some item.type, item.key.bytes) := by
  obtain ⟨ok, cs, q, held, items⟩ := rep
  refine ⟨places cs 0, walk_chain held.chain held.cells held.inside held.blank (by omega), ?_⟩
  rw [← items, map_map]
  have go (p : Nat) (cs : List Cell) (chain : Chain s.cfg.mem p cs q) : ((places cs p).map fun p =>
      (CfgType.ofCode (s.cfg.mem p), b.stringAt s.cfg.mem (p + 4))) =
        cs.map ((fun item => (some item.type, item.key.bytes)) ∘ item) := by
    induction cs generalizing p with
    | nil => rfl
    | cons c cs ih =>
      obtain ⟨lies, rest⟩ := chain
      have far := rest.le
      have inside := held.inside
      have short : c.key.bytes.length < b.size := by
        rw [Cell.size, Cell.start] at far
        omega
      rw [places, map_cons, map_cons, ih _ rest, (head_at lies).1, CfgType.ofCode_code,
        stringAt_lies (key_at lies) c.key.plain short]
      rfl
  exact go 0 cs held.chain

theorem putValue_other {db : List Item} {value : List UInt8} {i : Item} (member : i ∈ db) (other : i.key ≠ key) :
    i ∈ putValue db key value := mem_map.mpr ⟨i, member, if_neg other⟩

theorem editAll_log {edits : List Edit} {log : List (Edit × CfgRet)} {cfg' : Config}
    (run : b.editAll cfg edits = some (cfg', log)) : ∀ r ∈ log, r.1 ∈ edits := by
  induction edits generalizing cfg log with
  | nil =>
    cases run
    simp
  | cons edit edits ih =>
    rw [editAll] at run
    split at run
    · exact fun r member => mem_cons_of_mem _ (ih run r member)
    · next p found =>
      generalize b.getConfig cfg p edit = g at run
      obtain ⟨mem, ret⟩ := g
      cases ret with
      | abort => cases run
      | done =>
        cases run
        simp
      | _ =>
        obtain ⟨r, rest, equal⟩ := Option.map_eq_some_iff.mp run
        cases equal
        intro x member
        rcases mem_cons.mp member with rfl | old
        · exact mem_cons_self
        · exact mem_cons_of_mem _ (ih rest x old)

theorem foldl_putTyped_other {db : List Item} {log : List (Edit × CfgRet)} {i : Item} (member : i ∈ db)
    (other : ∀ r ∈ log, i.key ≠ r.1.key) : i ∈ log.foldl b.putTyped db := by
  induction log generalizing db with
  | nil => exact member
  | cons r log ih =>
    rw [foldl_cons]
    refine ih ?_ fun x old => other x (mem_cons_of_mem _ old)
    rw [putTyped]
    split
    · exact mem_map.mpr ⟨i, member, if_neg (other r mem_cons_self)⟩
    · exact member

theorem act_other {i : Item} (member : i ∈ s.db) (other : i.key ∉ keys e) : i ∈ (b.act s e).db := by
  cases e with
  | add opt update =>
    have differs : i.key ≠ opt.key := fun same => other (by simp [keys, same])
    rw [Build.act]
    split
    · dsimp only
      rw [addItem]
      split
      · exact putValue_other member differs
      · exact mem_append_left _ member
    · exact member
    · exact member
  | set key val type =>
    have differs : i.key ≠ key := fun same => other (by simp [keys, same])
    rw [Build.act]
    split
    · exact putValue_other member differs
    · exact member
  | fconfig edits =>
    rw [Build.act, doFlashConfig]
    cases run : b.editAll s.cfg edits with
    | none => exact member
    | some r =>
      have inside := editAll_log (show _ = some (r.1, r.2) from run)
      refine foldl_putTyped_other member fun x old same => other ?_
      rw [keys, same]
      exact mem_map_of_mem (inside x old)

/-- Every run of safe operations keeps a typed map: each key is answered with the value last stored under it, the list
can be parsed, an option is refused only for lack of room, and the entries of other keys stay as they are. -/
theorem config_is_map (reach : (Machine.guided (Starts b) (fun s e => Valid b e ∧ Safe b s e) b.act).Reach s) :
    (∀ key type, Sought b s.cfg.mem key → Answers b s key type) ∧
      (∃ ps, b.walk s.cfg.mem (b.size + 1) 0 = some ps ∧
        (ps.map fun p => (CfgType.ofCode (s.cfg.mem p), b.stringAt s.cfg.mem (p + 4))) =
          s.db.map fun item => (some item.type, item.key.bytes)) ∧
      (∀ opt update, Valid b (.add opt update) → Safe b s (.add opt update) →
        ∃ cfg done, b.flashAddConfig s.cfg opt update = some (cfg, done) ∧
          (done = true ↔ (∃ item ∈ s.db, item.key = opt.key) ∨
            (s.db.map b.itemSize).sum + b.itemSize (b.newItem opt) ≤ b.size)) ∧
      ∀ e, Valid b e → Safe b s e → ∀ item ∈ s.db, item.key ∉ keys e → item ∈ (b.act s e).db := by
  have rep : Rep b s := reach.kept (fun _ starts => starts.rep) fun s e rep ok => rep.act ok.1 ok.2
  exact ⟨fun key type sought => rep.answers sought type, rep.parses,
    fun opt update valid safe => rep.add_done valid safe, fun e _ _ item member other => act_other member other⟩

/-- The default sizes. -/
def standard : Build where
  maxString := 128
  maxScript := 512
  size := 4096 - 16
  ports := [⟨[101, 116, 104, 48], by decide⟩]
  crc _ := [0, 0, 0, 0]
  shown _ _ := []
  parseBool line := if line.head? = some 116 then some true else if line.head? = some 102 then some false else none
  parseNum _ := none
  hostname _ := none
  parseEsa _ := none
  string_pos := by decide
  script_pos := by decide
  esa_length := by simp
  ports_some := by simp
  ports_fit := by decide

/-- The keys `data` and `run`. -/
def dataKey : CString := ⟨[100, 97, 116, 97], by decide⟩

def runKey : CString := ⟨[114, 117, 110], by decide⟩

/-- A script and a flag after it. -/
def table : List ConfigOption := [⟨dataKey, none, true, .script, fun _ => 0⟩, ⟨runKey, none, true, .bool, fun _ => 0⟩]

def fresh : Store where
  cfg := (standard.configInit ⟨false, fun _ => 255⟩ table).getD ⟨false, fun _ => 255⟩
  db := table.map standard.newItem

/-- A string of `n` letters. -/
def letters (n : Nat) (i : Nat) : UInt8 := if i < n then 97 else 0

def longLine : CString := ⟨List.replicate 255 97, fun zero => absurd (List.eq_of_mem_replicate zero) (by decide)⟩

/-- Two lines of 255 letters, and the end. -/
def fullScript : List Typed := [.line longLine, .line longLine, .line ⟨[], by simp⟩]

theorem fresh_starts : Starts standard fresh := by
  refine ⟨⟨false, fun _ => 255⟩, table, by decide, ?_, by decide +kernel, by rw [fresh], by rw [fresh]⟩
  intro opt member
  rcases mem_cons.mp member with rfl | member
  · exact ⟨by decide, by decide, by decide, by decide, fun _ => rfl⟩
  · obtain rfl := mem_singleton.mp member
    exact ⟨by decide, by decide, by decide, by decide, by decide⟩

theorem fresh_sought : Sought standard fresh.cfg.mem dataKey := by
  refine ⟨by decide, ?_⟩
  unfold Unlike
  decide +kernel

set_option maxRecDepth 100000 in
theorem config_is_map_short : ∃ s : Store, Answers standard s dataKey .script ∧
    (standard.flashGetConfig s.cfg dataKey .script = some (.pointer 9)) ∧
      strEq s.cfg.mem 9 (List.replicate 100 97) = true := by
  have valid : Valid standard (.set dataKey (letters 100) .script) := ⟨by decide, fun _ => by decide +kernel⟩
  have safe : Safe standard fresh (.set dataKey (letters 100) .script) :=
    ⟨fresh_sought, fun _ => ⟨by decide +kernel, by decide⟩⟩
  refine ⟨standard.act fresh (.set dataKey (letters 100) .script), ?_, by decide +kernel, by decide +kernel⟩
  refine (config_is_map (.next (.start fresh_starts) ⟨_, ⟨valid, safe⟩, rfl⟩)).1 dataKey .script ⟨by decide, ?_⟩
  unfold Unlike
  decide +kernel

set_option maxRecDepth 100000 in
/-- A script of 200 letters is cut at `MAX_STRING_LENGTH` by `flash_set_config`; and one that is typed and fills its field
puts its end over the type of the next object. -/
theorem script_spoiled :
    (∃ s, (Machine.guided (Starts standard) (fun _ e => Valid standard e) standard.act).Reach s ∧
      (standard.flashSetConfig s.cfg dataKey (letters 200) .script).2 = true ∧
      ∃ p, standard.flashGetConfig (standard.act s (.set dataKey (letters 200) .script)).cfg dataKey .script =
          some (.pointer p) ∧ strEq (standard.act s (.set dataKey (letters 200) .script)).cfg.mem p
            (standard.stored .script (letters 200)) = false) ∧
    ∃ s, (Machine.guided (Starts standard) (fun _ e => Valid standard e) standard.act).Reach s ∧
      standard.flashGetConfig s.cfg runKey .bool = some (.bytes [0, 0, 0, 0]) ∧
      standard.flashGetConfig (standard.act s (.fconfig [⟨dataKey, true, 0, fullScript⟩])).cfg runKey .bool =
        some .wrongType :=
  ⟨⟨fresh, .start fresh_starts, by decide +kernel, 9, by decide +kernel, by decide +kernel⟩,
    fresh, .start fresh_starts, by decide +kernel, by decide +kernel⟩

end Build

end Ecos.Redboot
