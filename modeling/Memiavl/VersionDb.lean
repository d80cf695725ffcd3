import Memiavl.StoreTree
import Memiavl.Library.TimedMap

/-! `versiondb` on a store with timestamps: the writes of change sets, reads at a version, and the
iterators with their seeks and skips. Timestamps are versions as unsigned integers. -/
namespace Memiavl

open TimedMap

structure ImportEntry where
  storeKey : Bytes
  key : Bytes
  value : Bytes
  deriving DecidableEq

/-- The column family with the records, and the key for the latest version. -/
structure VersionStore where
  records : TimedMap Bytes UInt64 Bytes := {}
  latestVersion : Option UInt64 := none
  skipVersionZero : Bool := false

/-- `s/k:` with the name of the store and `/`. -/
def storePrefix (storeKey : Bytes) : Bytes := [115,47,107,58] ++ storeKey ++ [47]

def prependStoreKey (storeKey key : Bytes) : Bytes := storePrefix storeKey ++ key

def recordOf (version : Int64) (storeKey key : Bytes) (delete : Bool) (value : Bytes) :
    Record Bytes UInt64 Bytes :=
  ⟨prependStoreKey storeKey key,version.toUInt64,if delete then none else some value⟩

/-- The timestamp of a read; `nil` reads the latest version. -/
def readTimestamp : Option Int64 → UInt64
  | none => 2^64-1
  | some version => version.toUInt64

namespace VersionStore

def setLatestVersion (s : VersionStore) (version : Int64) : VersionStore :=
  { s with latestVersion := some version.toUInt64 }

def writeBatch (s : VersionStore) (batch : List (Record Bytes UInt64 Bytes)) : VersionStore :=
  { s with records := s.records.writeAll batch }

def putAtVersion (s : VersionStore) (version : Int64) (changeSet : List StoreKVPair) :
    VersionStore :=
  (s.writeBatch (changeSet.map fun pair =>
    recordOf version pair.storeKey pair.key pair.delete pair.value)).setLatestVersion version

def feedChangeSet (s : VersionStore) (version : Int64) (store : Bytes) (changeSet : ChangeSet) :
    VersionStore :=
  s.writeBatch (changeSet.map fun pair => recordOf version store pair.key pair.delete pair.value)

/-- `Import`, by the entries that come through the channel. -/
def importEntries (s : VersionStore) (version : Int64) (entries : List ImportEntry) :
    VersionStore :=
  (s.writeBatch (entries.map fun entry =>
    recordOf version entry.storeKey entry.key false entry.value)).setLatestVersion version

def getAtVersion (s : VersionStore) (storeKey key : Bytes) (version : Option Int64) : Option Bytes :=
  let key := prependStoreKey storeKey key
  match shown key (s.records.read key (readTimestamp version)) with
  | none => none
  | some x => if s.skipVersionZero ∧ x.time = 0 then none else some x.value

def hasAtVersion (s : VersionStore) (storeKey key : Bytes) (version : Option Int64) : Bool :=
  (s.getAtVersion storeKey key version).isSome

def getLatestVersion (s : VersionStore) : Int64 :=
  match s.latestVersion with
  | none => 0
  | some ts => ts.toInt64

end VersionStore

/-- The byte string of the same length that comes next, or nothing after the last one. -/
def cpIncr (bz : Bytes) : Option Bytes := (incr bz.reverse).map List.reverse
where
  /-- From the last byte on. -/
  incr : Bytes → Option Bytes
    | [] => none
    | b::bs => if b < 255 then some ((b+1)::bs) else (incr bs).map (0::·)

def iterateWithPrefix (storePrefix : Bytes) (start stop : Option Bytes) :
    Option Bytes × Option Bytes :=
  if storePrefix = [] then (start,stop)
  else (some (storePrefix ++ start.getD []),
    match stop with
    | none => cpIncr storePrefix
    | some stop => some (storePrefix ++ stop))

/-- An iterator of the store underneath, over what is visible at its timestamp. -/
structure SourceIterator where
  items : List (Visible Bytes UInt64 Bytes)
  pos : Option ℕ := none

namespace SourceIterator

def current (it : SourceIterator) : Option (Visible Bytes UInt64 Bytes) :=
  it.pos.bind fun i => it.items[i]?

def seekToFirst (it : SourceIterator) : SourceIterator :=
  { it with pos := if it.items = [] then none else some 0 }

def seekToLast (it : SourceIterator) : SourceIterator :=
  { it with pos := if it.items = [] then none else some (it.items.length-1) }

def seek (it : SourceIterator) (target : Bytes) : SourceIterator :=
  { it with pos := it.items.findIdx? fun x => target ≤ x.key }

def next (it : SourceIterator) : SourceIterator :=
  { it with pos := it.pos.bind fun i => if i+1 < it.items.length then some (i+1) else none }

def prev (it : SourceIterator) : SourceIterator :=
  { it with pos := it.pos.bind fun i => if i = 0 then none else some (i-1) }

end SourceIterator

structure RocksDBIterator where
  source : SourceIterator
  storePrefix : Bytes
  start : Option Bytes
  stop : Option Bytes
  isReverse : Bool
  skipVersionZero : Bool

namespace RocksDBIterator

/-- The key is in the range, as far as an iterator in this direction has to look. -/
def inRange (it : RocksDBIterator) (key : Bytes) : Bool :=
  if it.isReverse then it.start.all fun start => ¬key < start
  else it.stop.all fun stop => ¬stop ≤ key

/-- `Valid`; what follows after it is false once is not used. -/
def valid (it : RocksDBIterator) : Bool := it.source.current.any fun x => it.inRange x.key

def advance (it : RocksDBIterator) : RocksDBIterator :=
  { it with source := if it.isReverse then it.source.prev else it.source.next }

/-- The loop takes at most as many turns as there are items. -/
def trySkipZeroVersion : ℕ → RocksDBIterator → RocksDBIterator
  | 0,it => it
  | fuel+1,it =>
    if it.skipVersionZero ∧ it.valid ∧ it.source.current.any (fun x => x.time = 0) then
      trySkipZeroVersion fuel it.advance
    else it

def next (it : RocksDBIterator) : RocksDBIterator :=
  it.advance.trySkipZeroVersion it.source.items.length

def new (source : SourceIterator) (storePrefix : Bytes) (start stop : Option Bytes)
    (isReverse skipVersionZero : Bool) : RocksDBIterator :=
  let source :=
    if isReverse then
      match stop with
      | none => source.seekToLast
      | some stop =>
        let source := source.seek stop
        match source.current with
        | some eoakey => if stop ≤ eoakey.key then source.prev else source
        | none => source.seekToLast
    else
      match start with
      | none => source.seekToFirst
      | some start => source.seek start
  RocksDBIterator.trySkipZeroVersion source.items.length
    ⟨source,storePrefix,start,stop,isReverse,skipVersionZero⟩

/-- All that a caller gets, who calls `Key`, `Value` and `Next` as long as `Valid` holds. -/
def consume : ℕ → RocksDBIterator → List (Bytes × Bytes)
  | 0,_ => []
  | fuel+1,it =>
    match it.source.current with
    | none => []
    | some x =>
      if it.valid then (x.key.drop it.storePrefix.length,x.value)::consume fuel it.next else []

end RocksDBIterator

namespace VersionStore

def iteratorAtVersion (s : VersionStore) (storeKey : Bytes) (start stop : Option Bytes)
    (version : Option Int64) (reverse : Bool) : Except String RocksDBIterator :=
  if start = some [] ∨ stop = some [] then .error "key cannot be empty"
  else
    let pre := Memiavl.storePrefix storeKey
    let (start,stop) := iterateWithPrefix pre start stop
    .ok (.new ⟨s.records.visible (readTimestamp version),none⟩ pre start stop reverse
      s.skipVersionZero)

/-- The pairs of an iterator, from its start to its end. -/
def iterate (s : VersionStore) (storeKey : Bytes) (start stop : Option Bytes)
    (version : Option Int64) (reverse : Bool) : Except String (List (Bytes × Bytes)) :=
  (s.iteratorAtVersion storeKey start stop version reverse).map fun it =>
    it.consume (it.source.items.length+1)

inductive Call
  | putAtVersion (version : Int64) (changeSet : List StoreKVPair)
  | feedChangeSet (version : Int64) (store : Bytes) (changeSet : ChangeSet)
  | importEntries (version : Int64) (entries : List ImportEntry)

def call (s : VersionStore) : Call → VersionStore
  | .putAtVersion version changeSet => s.putAtVersion version changeSet
  | .feedChangeSet version store changeSet => s.feedChangeSet version store changeSet
  | .importEntries version entries => s.importEntries version entries

def run (s : VersionStore) (calls : List Call) : VersionStore := calls.foldl call s

end VersionStore
end Memiavl
