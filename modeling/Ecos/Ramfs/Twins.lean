import Ecos.Ramfs.BlocksSafety

/-! One file in both of the storages that a RAM filesystem can be configured with. -/

namespace Ecos.Ramfs
variable {B H : Type} [DecidableEq B] [DecidableEq H] {cfg : SimpleConfig} {junk : Nat → UInt8} {cfg' : BlocksConfig}
  {contents : B → Block B} {free : List B} {h : H}

/-- One file in either storage. -/
abbrev Twins (B H : Type) := File SimpleData H × File (BlocksData B) H

variable {p : Twins B H}

/-- Both storages can do what is asked for, and the blocks suffice for what is written. -/
def TwinOk (cfg' : BlocksConfig) (p : Twins B H) (e : FileEvent H) : Prop :=
  p.1.Enabled e ∧ SimpleData.Kind p.1 e ∧ BlocksData.Kind cfg' p.2 e ∧ ∀ h bufs, e = .write h bufs →
    ∀ r ∈ (blockwise cfg').foWrite p.2.node (p.2.fp h) bufs,
      r.2.1.offset = Storage.startOf p.2.node (p.2.fp h) + bufs.flatten.length

/-- The same calls on a new file in either storage. -/
def twins (cfg : SimpleConfig) (junk : Nat → UInt8) (cfg' : BlocksConfig) (contents : B → Block B) (free : List B) :
    Machine (Twins B H) :=
  .guided (fun p => ∃ append : H → Bool, p = (⟨⟨0, .empty⟩, fun h => ⟨0, append h⟩, fun _ => none⟩,
      ⟨⟨0, .empty contents free⟩, fun h => ⟨0, append h⟩, fun _ => none⟩))
    (TwinOk cfg') fun p e => (p.1.step (simple cfg junk) e, p.2.step (blockwise cfg') e)

structure Alike (cfg' : BlocksConfig) (p : Twins B H) : Prop where
  left : SimpleData.Good p.1
  right : BlocksData.Good cfg' p.2
  size : p.1.node.size = p.2.node.size
  fp : p.1.fp = p.2.fp
  log : p.1.log = p.2.log

variable (cfg junk) in
theorem Alike.read (alike : Alike cfg' p) (aligned : cfg'.Aligned) {lens : List Nat}
    (kind : BlocksData.Kind cfg' p.2 (.read h lens)) : ∃ fp bytes,
    (simple cfg junk).foRead p.1.node (p.1.fp h) lens = some (p.1.node, fp, .ok bytes) ∧
      (blockwise cfg').foRead p.2.node (p.2.fp h) lens = some (p.2.node, fp, .ok bytes) := by
  have one := alike.left.read cfg junk h lens
  have bytes : p.1.byte = p.2.byte := by
    funext i
    simp only [File.byte, alike.log]
  rw [alike.fp, alike.size, bytes] at one
  rw [alike.fp]
  exact ⟨_, _, one, alike.right.read aligned kind⟩

theorem Alike.step (alike : Alike cfg' p) (aligned : cfg'.Aligned) {e : FileEvent H} (ok : TwinOk cfg' p e) :
    Alike cfg' (p.1.step (simple cfg junk) e, p.2.step (blockwise cfg') e) := by
  obtain ⟨_, kind, kind', enough⟩ := ok
  suffices same : (p.1.step (simple cfg junk) e).node.size = (p.2.step (blockwise cfg') e).node.size ∧
      (p.1.step (simple cfg junk) e).fp = (p.2.step (blockwise cfg') e).fp ∧
      (p.1.step (simple cfg junk) e).log = (p.2.step (blockwise cfg') e).log from
    ⟨alike.left.step kind, alike.right.step aligned kind', same.1, same.2.1, same.2.2⟩
  cases e with
  | lseek h pos whence =>
    have sought : foLseek p.1.node (p.1.fp h) pos whence = foLseek p.2.node (p.2.fp h) pos whence := by
      cases whence <;> simp only [foLseek, alike.fp, alike.size]
    simp only [File.step, sought]
    split
    · exact ⟨alike.size, alike.fp, alike.log⟩
    · exact ⟨alike.size, by rw [alike.fp], alike.log⟩
  | read h lens =>
    obtain ⟨fp, bytes, one, other⟩ := alike.read cfg junk aligned kind'
    simp only [File.step, one, other]
    exact ⟨alike.size, by rw [alike.fp], alike.log⟩
  | write h bufs =>
    have begin : Storage.startOf p.1.node (p.1.fp h) = Storage.startOf p.2.node (p.2.fp h) := by
      simp only [Storage.startOf, alike.fp, alike.size]
    obtain ⟨data, one, _⟩ := alike.left.write cfg junk kind
    obtain ⟨data', k, full, other, _⟩ := alike.right.write aligned kind'
    have all := Nat.add_left_cancel (enough h bufs rfl _ other)
    subst all
    simp only [File.step, one, other, begin]
    exact ⟨by rw [alike.size], by rw [alike.fp], by rw [alike.log]⟩

end Ecos.Ramfs
