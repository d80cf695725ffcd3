import Memiavl.Db
import Memiavl.WalTail

/-! What `Load` with `ReadOnly` does to the files of a database, down to the bytes of its log. -/
namespace Memiavl

/-- The log of `disk` has the whole entries of the segments. -/
structure Files where
  disk : Disk
  /-- The last segment of the log. -/
  segment : Option Bytes
  deriving DecidableEq

/-- `wal.Open`, with the last segment as it leaves it: a log without segments gets an empty one.
`none` is `ErrCorrupt`. -/
def walOpen : Option Bytes → Option Bytes
  | none => some []
  | some segment => if (scanEntries segment.length 0 segment).2 = [] then some segment else none

/-- `OpenWAL`, with the last segment as it leaves it, and whether the log is open. -/
def openWAL (segment : Option Bytes) : Option Bytes × Bool :=
  match walOpen segment with
  | some opened => (some opened,true)
  | none =>
    let repaired := segment.map truncateCorruptedTail
    (repaired,(walOpen repaired).isSome)

/-- `Load` with `ReadOnly`: the snapshot is read before the log is opened. -/
def DB.loadReadOnly (o : Options) (f : Files) : Except String DB × Files :=
  match prepare o f.disk with
  | (disk,some e) => (.error e,{ f with disk })
  | (disk,none) =>
    match (disk.startSnapshot o.targetVersion.toNat).bind disk.loadMultiTree with
    | .error e => (.error e,{ f with disk })
    | .ok _ =>
      match openWAL f.segment with
      | (segment,false) => (.error "log corrupt",⟨disk,segment⟩)
      | (segment,true) => ((load o disk).1,⟨(load o disk).2,segment⟩)

/-- A segment with damage that `OpenWAL` removes. -/
def CutByOpen (segment : Bytes) : Prop := ∃ whole damage, segment = whole ++ damage ∧
  WholeFile whole ∧ Damaged damage ∧ whole.length ≠ damage.length

theorem openWAL_some (segment : Bytes) :
    (openWAL (some segment)).1 = some segment ↔ ¬CutByOpen segment := by
  obtain ⟨whole,rest,rfl,hwhole,hend,-⟩ := @scanEntries_spec segment.length 0 segment le_rfl
  have hcut : CutByOpen (whole ++ rest) ↔ rest ≠ [] ∧ whole.length ≠ rest.length := by
    constructor
    · rintro ⟨whole',damage,heq,hwhole',hdamaged,hlen⟩
      obtain ⟨rfl,rfl⟩ := hwhole.eq_of_append hend hwhole' (.inr hdamaged) heq
      exact ⟨hdamaged.1,hlen⟩
    · rintro ⟨hne,hlen⟩
      exact ⟨whole,rest,rfl,hwhole,hend.resolve_left hne,hlen⟩
  rw [hcut,openWAL,walOpen,scanEntries_append hwhole hend]
  by_cases hrest : rest = []
  · simp [hrest]
  · simp [hrest,truncateCorruptedTail_append hwhole hend]

section
variable {o : Options} (hro : o.readOnly = true)
include hro

theorem validate_readOnly (hv : o.validate = none) :
    o.createIfMissing = false ∧ o.loadForOverwriting = false := by
  cases hc : o.createIfMissing <;> cases hl : o.loadForOverwriting <;>
    simp_all [Options.validate]

theorem prepare_readOnly (d : Disk) :
    DB.prepare o d = (d,o.validate.map fun e => s!"invalid options: {e}") := by
  cases hv : o.validate with
  | some e => simp [DB.prepare,hv]
  | none => simp [DB.prepare,hv,(validate_readOnly hro hv).1,hro]

theorem load_readOnly (d : Disk) : (DB.load o d).2 = d := by
  rw [DB.load,prepare_readOnly hro]
  cases hv : o.validate with
  | some e => rfl
  | none =>
    simp only [Option.map_none]
    cases d.loadTarget o.targetVersion.toNat with
    | error e => rfl
    | ok p => simp [DB.rollback,(validate_readOnly hro hv).2]

end

/-- A new database. -/
def Sample.newDisk : Disk := (Disk.createDBIfNotExist {} 0).1

end Memiavl
