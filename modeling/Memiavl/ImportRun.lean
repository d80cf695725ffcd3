import Memiavl.Import
import Memiavl.Library.Transition

/-! The two goroutines of a restore: the reader of the stream, and the importer of a tree, which
takes nodes from a channel with room for `NodeChannelBuffer` of them and hands its result over
when the reader closes the channel. -/
namespace Memiavl

open Transition

def NodeChannelBuffer : ℕ := 2048

/-- The goroutine of a `TreeImporter`. -/
inductive ImportWorker
  /-- Creates the directory and the files of the tree. -/
  | opening
  | adding (i : Importer)
  /-- `doImport` has returned, and its result waits to be received. -/
  | finished (result : Except String TreeFiles)

structure TreeImporter where
  name : Bytes
  nodesChan : List ExportNode := []
  worker : ImportWorker := .opening

/-- What the reader does once the importer of a tree is closed. -/
inductive AfterClose
  | addTree (name : Bytes)
  | finalize (item : Option SnapshotItem)
  | fail (err : String)

/-- What the reader makes of an item. -/
inductive ItemUse
  | add (node : ExportNode)
  | close (next : AfterClose)

def SnapshotItem.use : SnapshotItem → ItemUse
  | .store name => .close (.addTree name)
  | .iavl key value version height =>
    if height > maxInt8 then
      .close (.fail s!"node height {height} cannot exceed {maxInt8}: internal logic error")
    else .add ⟨key,value,version,toInt8 height⟩
  | .extension => .close (.finalize (some .extension))
  | .invalid err => .close (.fail s!"invalid protobuf message: {err}")

inductive Reader
  | reading
  | sending (node : ExportNode)
  /-- Has closed the channel and waits for the result. -/
  | closing (next : AfterClose)
  | returned (result : Except String (Option SnapshotItem × Disk))
  | crashed

structure ImportSystem where
  height : ℕ
  disk : Disk
  items : List SnapshotItem
  trees : Option (List (Bytes × TreeFiles)) := none
  importer : Option TreeImporter := none
  reader : Reader := .reading

inductive ImportAct
  | read
  | send
  | receive
  /-- Steps of the importer of a tree; a write to its files can fail. -/
  | openFiles (failure : Option String)
  | take (failure : Option String)
  | finish (failure : Option String)

namespace ImportSystem

def start (d : Disk) (height : ℕ) (items : List SnapshotItem) : ImportSystem :=
  { height, disk := d, items, trees := (d.tmpDirs.lookup height).map SnapshotDir.trees }

/-- A panic of either goroutine ends the process. -/
def crash (s : ImportSystem) : ImportSystem := { s with importer := none, reader := .crashed }

def goOn (s : ImportSystem) : AfterClose → ImportSystem
  | .addTree name => { s with importer := some { name }, reader := .reading }
  | .finalize item =>
    match MultiTreeImporter.finalize ⟨s.height,s.trees,none⟩ s.disk with
    | .ok d => { s with reader := .returned (.ok (item,d)) }
    | .error err => { s with reader := .returned (.error err) }
    | .panic => s.crash
  | .fail err => { s with reader := .returned (.error err) }

def close (s : ImportSystem) (next : AfterClose) : ImportSystem :=
  match s.importer with
  | none => s.goOn next
  | some _ => { s with reader := .closing next }

/-- One turn of the loop of `restore`, up to the send of a node. -/
def readItem (s : ImportSystem) : ImportSystem :=
  match s.items with
  | [] => s.close (.finalize none)
  | item::items =>
    match item.use with
    | .close next => { s with items }.close next
    | .add node =>
      match s.importer with
      | none => s.crash
      | some _ => { s with items, reader := .sending node }

def received (s : ImportSystem) (name : Bytes) (next : AfterClose) :
    Except String TreeFiles → ImportSystem
  | .ok files =>
    { s with trees := some (putFiles name files (s.trees.getD [])), importer := none }.goOn next
  | .error err =>
    match next with
    | .fail err => { s with importer := none, reader := .returned (.error err) }
    | _ => { s with importer := none, reader := .returned (.error err) }

def setImporter (s : ImportSystem) (t : TreeImporter) (worker : ImportWorker) : ImportSystem :=
  { s with importer := some { t with worker } }

def afterAdd (s : ImportSystem) (t : TreeImporter) : Outcome Importer → ImportSystem
  | .ok i => s.setImporter t (.adding i)
  | .error err => s.setImporter t (.finished (.error err))
  | .panic => s.crash

def afterFinish (s : ImportSystem) (t : TreeImporter) : Outcome TreeFiles → ImportSystem
  | .ok files => s.setImporter t (.finished (.ok files))
  | .error err => s.setImporter t (.finished (.error err))
  | .panic => s.crash

def step (s : ImportSystem) : ImportAct → Option ImportSystem
  | .read =>
    match s.reader with
    | .reading => some s.readItem
    | _ => none
  | .send =>
    match s.reader,s.importer with
    | .sending node,some t =>
      if t.nodesChan.length < NodeChannelBuffer then
        some { s with
          importer := some { t with nodesChan := t.nodesChan ++ [node] }
          reader := .reading }
      else none
    | _,_ => none
  | .receive =>
    match s.reader,s.importer with
    | .closing next,some ⟨name,_,.finished result⟩ => some (s.received name next result)
    | _,_ => none
  | .openFiles failure =>
    match s.importer with
    | some ⟨name,nodes,.opening⟩ => some (s.setImporter ⟨name,nodes,.opening⟩
        (match failure with
          | none => .adding {}
          | some err => .finished (.error err)))
    | _ => none
  | .take failure =>
    match s.importer with
    | some ⟨name,n::nodes,.adding i⟩ => some (s.afterAdd ⟨name,nodes,.adding i⟩
        (match failure with
          | none => i.add n
          | some err => .error err))
    | _ => none
  | .finish failure =>
    match s.importer,s.reader with
    | some ⟨name,[],.adding i⟩,.closing _ => some (s.afterFinish ⟨name,[],.adding i⟩
        (match failure with
          | none => i.finish (.ofNat s.height)
          | some err => .error err))
    | _,_ => none

/-- Runs of the two goroutines, in any order. -/
abbrev Runs : ImportSystem → ImportSystem → Prop :=
  Run step fun _ _ => True

abbrev Moves : ImportSystem → ImportSystem → Prop :=
  Transition.Moves step fun _ _ => True

end ImportSystem

/-- The items that send a node. -/
def SnapshotItem.isNode (item : SnapshotItem) : Bool :=
  match item.use with
  | .add _ => true
  | .close _ => false

namespace ImportSystem

inductive Turns (s : ImportSystem) : ImportAct → ImportSystem → Prop
  | read (hreader : s.reader = .reading) : Turns s .read s.readItem
  | send {node : ExportNode} {t : TreeImporter} (hreader : s.reader = .sending node)
      (himporter : s.importer = some t) (hroom : t.nodesChan.length < NodeChannelBuffer) :
      Turns s .send { s with
        importer := some { t with nodesChan := t.nodesChan ++ [node] }
        reader := .reading }
  | receive {next : AfterClose} {name : Bytes} {nodes : List ExportNode}
      {result : Except String TreeFiles} (hreader : s.reader = .closing next)
      (himporter : s.importer = some ⟨name,nodes,.finished result⟩) :
      Turns s .receive (s.received name next result)
  | openFiles {name : Bytes} {nodes : List ExportNode} (failure : Option String)
      (himporter : s.importer = some ⟨name,nodes,.opening⟩) :
      Turns s (.openFiles failure) (s.setImporter ⟨name,nodes,.opening⟩
        (match failure with
          | none => .adding {}
          | some err => .finished (.error err)))
  | take {name : Bytes} {n : ExportNode} {nodes : List ExportNode} {i : Importer}
      (failure : Option String) (himporter : s.importer = some ⟨name,n::nodes,.adding i⟩) :
      Turns s (.take failure) (s.afterAdd ⟨name,nodes,.adding i⟩
        (match failure with
          | none => i.add n
          | some err => .error err))
  | finish {next : AfterClose} {name : Bytes} {i : Importer} (failure : Option String)
      (himporter : s.importer = some ⟨name,[],.adding i⟩) (hreader : s.reader = .closing next) :
      Turns s (.finish failure) (s.afterFinish ⟨name,[],.adding i⟩
        (match failure with
          | none => i.finish (.ofNat s.height)
          | some err => .error err))

variable {s s' : ImportSystem} {a : ImportAct} {d : Disk} {n : ℕ}

theorem turns_of_step (h : s.step a = some s') : s.Turns a s' := by
  cases a with
  | read =>
    simp only [step] at h
    split at h
    · rename_i hreader
      cases h
      exact .read hreader
    · cases h
  | send =>
    simp only [step] at h
    split at h
    · rename_i hreader himporter
      split at h
      · rename_i hroom
        cases h
        exact .send hreader himporter hroom
      · cases h
    · cases h
  | receive =>
    simp only [step] at h
    split at h
    · rename_i hreader himporter
      cases h
      exact .receive hreader himporter
    · cases h
  | openFiles failure =>
    simp only [step] at h
    split at h
    · rename_i himporter
      cases h
      exact .openFiles failure himporter
    · cases h
  | take failure =>
    simp only [step] at h
    split at h
    · rename_i himporter
      cases h
      exact .take failure himporter
    · cases h
  | finish failure =>
    simp only [step] at h
    split at h
    · rename_i himporter hreader
      cases h
      exact .finish failure himporter hreader
    · cases h

theorem readItem_of_importer {t : TreeImporter} (h : s.importer = some t) :
    (∃ item items node, s.items = item::items ∧ item.isNode ∧
      s.readItem = { s with items, reader := .sending node }) ∨
    s.items.takeWhile SnapshotItem.isNode = [] ∧ ∃ next,
      s.readItem = { s with items := s.items.tail, reader := .closing next } := by
  obtain ⟨height,d,items,trees,importer,reader⟩ := s
  obtain rfl : importer = some t := h
  cases items with
  | nil => exact .inr ⟨rfl,.finalize none,rfl⟩
  | cons item items =>
    cases huse : item.use with
    | close next => exact .inr ⟨by simp [SnapshotItem.isNode,huse],next,by simp [readItem,huse,close]⟩
    | add node =>
      exact .inl ⟨item,items,node,rfl,by simp [SnapshotItem.isNode,huse],by simp [readItem,huse]⟩

/-- The reader uses an importer only while it is there, and the channel holds no more nodes than
it has room for. -/
structure Consistent (s : ImportSystem) : Prop where
  busy : s.importer.isSome →
    s.reader = .reading ∨ (∃ node, s.reader = .sending node) ∨ ∃ next, s.reader = .closing next
  room : ∀ t ∈ s.importer, t.nodesChan.length ≤ NodeChannelBuffer

theorem consistent_of_none (h : s.importer = none) : s.Consistent :=
  ⟨by simp [h],by simp [h]⟩

theorem consistent_goOn (h : s.importer = none) (next : AfterClose) : (s.goOn next).Consistent := by
  unfold goOn
  split
  · exact ⟨fun _ => .inl rfl,by simp⟩
  · split
    · exact consistent_of_none h
    · exact consistent_of_none h
    · exact consistent_of_none rfl
  · exact consistent_of_none h

theorem Consistent.setImporter (hs : s.Consistent) {t t' : TreeImporter} (h : s.importer = some t)
    (hle : t'.nodesChan.length ≤ t.nodesChan.length) (worker : ImportWorker) :
    (s.setImporter t' worker).Consistent := by
  refine ⟨fun _ => hs.busy (by simp [h]),?_⟩
  rintro _ ⟨⟩
  exact hle.trans (hs.room t h)

theorem consistent_close (h : s.importer = none) (next : AfterClose) :
    (s.close next).Consistent := by
  unfold close
  rw [h]
  exact consistent_goOn h next

theorem consistent_readItem (hs : s.Consistent) : s.readItem.Consistent := by
  cases himporter : s.importer with
  | some t =>
    have hroom := hs.room
    rcases readItem_of_importer himporter with ⟨_,_,node,_,_,h⟩ | ⟨_,next,h⟩
    · rw [h]
      exact ⟨fun _ => .inr (.inl ⟨node,rfl⟩),hroom⟩
    · rw [h]
      exact ⟨fun _ => .inr (.inr ⟨next,rfl⟩),hroom⟩
  | none =>
    unfold readItem
    split
    · exact consistent_close himporter _
    · split
      · apply consistent_close
        exact himporter
      · rw [himporter]
        exact consistent_of_none rfl

theorem Consistent.step (hs : s.Consistent) (h : s.step a = some s') : s'.Consistent := by
  cases turns_of_step h with
  | read hreader => exact consistent_readItem hs
  | send hreader himporter hroom =>
    refine ⟨fun _ => .inl rfl,?_⟩
    rintro _ ⟨⟩
    simpa using hroom
  | @receive next name nodes result hreader himporter =>
    cases result with
    | ok files => exact consistent_goOn rfl next
    | error err => cases next <;> exact consistent_of_none rfl
  | openFiles failure himporter => exact hs.setImporter himporter le_rfl _
  | @take name n nodes i failure himporter =>
    generalize (match failure with
      | none => i.add n
      | some err => .error err) = r
    cases r with
    | ok i | error err => exact hs.setImporter himporter (by simp) _
    | panic => exact consistent_of_none rfl
  | @finish next name i failure himporter hreader =>
    generalize (match failure with
      | none => i.finish (.ofNat s.height)
      | some err => .error err) = r
    cases r with
    | ok files | error err => exact hs.setImporter himporter le_rfl _
    | panic => exact consistent_of_none rfl

theorem consistent_of_runs {height : ℕ} {items : List SnapshotItem}
    (h : Runs (start d height items) s) : s.Consistent :=
  h.invariant (I := Consistent) (consistent_of_none rfl) fun _ _ _ hs _ hstep => hs.step hstep

/-- The nodes that the reader still sends before it closes the importer in work. -/
def unsent (s : ImportSystem) : ℕ :=
  match s.reader with
  | .reading => (s.items.takeWhile SnapshotItem.isNode).length
  | .sending _ => (s.items.takeWhile SnapshotItem.isNode).length+1
  | _ => 0

/-- The importer in work has failed, with that many nodes in its channel. -/
structure Failed (s : ImportSystem) (n : ℕ) : Prop where
  importer : ∃ name nodes err, s.importer = some ⟨name,nodes,.finished (.error err)⟩ ∧
    nodes.length = n
  room : n ≤ NodeChannelBuffer
  busy : s.reader = .reading ∨ (∃ node, s.reader = .sending node) ∨ ∃ next, s.reader = .closing next

/-- The restore has returned an error. -/
def Reports (s : ImportSystem) : Prop := ∃ err, s.reader = .returned (.error err)

/-- The steps that are left to the reader, two for each node. -/
def rank (s : ImportSystem) : ℕ :=
  match s.reader with
  | .reading => 3*s.items.length+2
  | .sending _ => 3*s.items.length+3
  | .closing _ => 3*s.items.length+1
  | _ => 0

/-- After the failure only the reader moves: it reads, sends into the channel while there is
room, or receives the error. -/
theorem Failed.moves (hs : s.Failed n) (h : s.Moves s') :
    s'.Reports ∧ s.unsent = 0 ∨ ∃ m, s'.Failed m ∧ m+s'.unsent = n+s.unsent ∧ s'.rank < s.rank := by
  obtain ⟨⟨name,nodes,err,himporter,hlen⟩,hroom,hbusy⟩ := hs
  obtain ⟨a,-,hstep⟩ := h
  cases turns_of_step hstep with
  | read hreader =>
    rcases readItem_of_importer himporter with ⟨item,items,node,hitems,hnode,h⟩ | ⟨hnone,next,h⟩
    · refine .inr ⟨n,⟨⟨name,nodes,err,?_,hlen⟩,hroom,.inr (.inl ⟨node,?_⟩)⟩,?_,?_⟩
      · rw [h,himporter]
      · rw [h]
      · simp [h,unsent,hreader,hitems,hnode]
      · simp only [h,rank,hreader,hitems,List.length_cons]
        omega
    · refine .inr ⟨n,⟨⟨name,nodes,err,?_,hlen⟩,hroom,.inr (.inr ⟨next,?_⟩)⟩,?_,?_⟩
      · rw [h,himporter]
      · rw [h]
      · simp [h,unsent,hreader,hnone]
      · simp only [h,rank,hreader,List.length_tail]
        omega
  | @send node t hreader ht hfree =>
    cases himporter.symm.trans ht
    refine .inr ⟨n+1,⟨⟨name,_,err,rfl,by simp [hlen]⟩,?_,.inl rfl⟩,?_,?_⟩
    · rw [← hlen]
      exact hfree
    · simp only [unsent,hreader]
      omega
    · simp only [rank,hreader]
      omega
  | receive hreader ht =>
    cases himporter.symm.trans ht
    rename_i next
    refine .inl ⟨?_,by rw [unsent,hreader]⟩
    cases next <;> exact ⟨_,rfl⟩
  | openFiles failure ht | take failure ht | finish failure ht => cases himporter.symm.trans ht

/-- The reader is stopped only by a full channel. -/
theorem Failed.live (hs : s.Failed n) (h : n+s.unsent ≤ NodeChannelBuffer) : ∃ s', s.Moves s' := by
  obtain ⟨⟨name,nodes,err,himporter,rfl⟩,-,hreader | ⟨node,hreader⟩ | ⟨next,hreader⟩⟩ := hs
  · exact ⟨s.readItem,.read,trivial,by simp [step,hreader]⟩
  · have hfree : nodes.length < NodeChannelBuffer := by
      simp only [unsent,hreader] at h
      omega
    exact ⟨_,.send,trivial,by simp only [step,hreader,himporter,if_pos hfree]; rfl⟩
  · exact ⟨_,.receive,trivial,by simp only [step,hreader,himporter]; rfl⟩

/-- With too many nodes left, the reader comes to a send that never ends. -/
theorem Failed.blocks (hs : s.Failed n) (h : NodeChannelBuffer < n+s.unsent) :
    ∃ s', s.Runs s' ∧ (∃ node, s'.reader = .sending node) ∧ ∀ s'', ¬s'.Moves s'' := by
  induction hr : s.rank using Nat.strong_induction_on generalizing s n with
  | _ r ih =>
    by_cases hmove : ∃ s', s.Moves s'
    · obtain ⟨s₁,hmove⟩ := hmove
      rcases hs.moves hmove with ⟨-,hzero⟩ | ⟨m,hs₁,hsum,hlt⟩
      · have := hs.room
        omega
      · obtain ⟨s',hrun,hend⟩ := ih _ (hr ▸ hlt) hs₁ (by omega) rfl
        exact ⟨s',.head hmove hrun,hend⟩
    · refine ⟨s,.refl,?_,fun s' hs' => hmove ⟨s',hs'⟩⟩
      obtain ⟨⟨name,nodes,err,himporter,rfl⟩,-,hreader | hreader | ⟨next,hreader⟩⟩ := hs
      · exact absurd ⟨s.readItem,.read,trivial,by simp [step,hreader]⟩ hmove
      · exact hreader
      · exact absurd ⟨_,.receive,trivial,by simp only [step,hreader,himporter]; rfl⟩ hmove

/-- Once the importer of a tree has failed, the restore returns an error under every schedule
exactly when the nodes of the store that were not taken yet fit into the channel. -/
theorem reports_inevitable_iff {d : Disk} {height : ℕ} {items : List SnapshotItem}
    {s : ImportSystem} {name : Bytes} {nodes : List ExportNode} {err : String}
    (hrun : Runs (start d height items) s)
    (hfailed : s.importer = some ⟨name,nodes,.finished (.error err)⟩) :
    Inevitably Moves Reports s ↔ nodes.length+s.unsent ≤ NodeChannelBuffer := by
  have hcons := consistent_of_runs hrun
  have hs : s.Failed nodes.length :=
    ⟨⟨name,nodes,err,hfailed,rfl⟩,hcons.room _ hfailed,hcons.busy (by simp [hfailed])⟩
  constructor
  · intro h
    by_contra hfull
    refine Inevitably.not_of_closed (C := fun s => ∃ n, s.Failed n ∧
      NodeChannelBuffer < n+s.unsent) ?_ ?_ ⟨_,hs,Nat.lt_of_not_le hfull⟩ h
    · rintro s ⟨n,hs,-⟩ ⟨err,hreader⟩
      rcases hs.busy with h | ⟨_,h⟩ | ⟨_,h⟩ <;> rw [hreader] at h <;> cases h
    · rintro s s' ⟨n,hs,h⟩ hmove
      rcases hs.moves hmove with ⟨-,hzero⟩ | ⟨m,hs',hsum,-⟩
      · have := hs.room
        omega
      · exact ⟨m,hs',by omega⟩
  · intro h
    refine Inevitably.of_rank (A := fun s => ∃ n, s.Failed n ∧
      n+s.unsent ≤ NodeChannelBuffer) Nat.lt_wfRel.wf rank ?_ ?_ ⟨_,hs,h⟩
    · rintro s s' ⟨n,hs,h⟩ hmove
      rcases hs.moves hmove with ⟨hreports,-⟩ | ⟨m,hs',hsum,hlt⟩
      · exact .inl hreports
      · exact .inr ⟨⟨m,hs',by omega⟩,hlt⟩
    · rintro s ⟨n,hs,h⟩
      exact hs.live h

/-- A store whose first node is refused, with some nodes behind it. -/
def refusedItems (n : ℕ) : List SnapshotItem :=
  .store [97]::.iavl [1] [1] (2^32) 0::List.replicate n (.iavl [1] [1] 1 0)

/-- The first node is taken before the next one is read. -/
theorem refused_run (n : ℕ) : ∃ s err, Runs (start {} 1 (refusedItems n)) s ∧
    s.importer = some ⟨[97],[],.finished (.error err)⟩ ∧ s.reader = .reading ∧ s.unsent = n := by
  have hexec : ∃ s, exec step (fun _ _ => True)
      [.read,.read,.send,.openFiles none,.take none] (start {} 1 (refusedItems n)) = some s ∧
      s.items = List.replicate n (.iavl [1] [1] 1 0) ∧ s.reader = .reading ∧
      ∃ err, s.importer = some ⟨[97],[],.finished (.error err)⟩ :=
    ⟨_,rfl,rfl,rfl,_,rfl⟩
  obtain ⟨s,hexec,hitems,hreader,err,himporter⟩ := hexec
  refine ⟨s,err,.of_exec hexec,himporter,hreader,?_⟩
  have hnode : SnapshotItem.isNode (.iavl [1] [1] 1 0) = true := rfl
  simp [unsent,hreader,hitems,hnode]

theorem reports_inevitable_refused : ∃ s, Runs (start {} 1 (refusedItems 2048)) s ∧
    Inevitably Moves Reports s := by
  obtain ⟨s,err,hrun,himporter,-,hunsent⟩ := refused_run 2048
  exact ⟨s,hrun,(reports_inevitable_iff hrun himporter).mpr (by simp [hunsent,NodeChannelBuffer])⟩

/-- With 2049 nodes behind the refused one, the reader blocks in a send for ever. -/
theorem refused_blocks : ∃ s s' err, Runs (start {} 1 (refusedItems 2049)) s ∧
    s.importer = some ⟨[97],[],.finished (.error err)⟩ ∧ s.Runs s' ∧
    (∃ node, s'.reader = .sending node) ∧ ∀ s'', ¬s'.Moves s'' := by
  obtain ⟨s,err,hrun,himporter,hreader,hunsent⟩ := refused_run 2049
  have hs : s.Failed 0 := ⟨⟨_,_,err,himporter,rfl⟩,by simp,.inl hreader⟩
  obtain ⟨s',hrun',hsending,hstuck⟩ := hs.blocks (by simp [hunsent,NodeChannelBuffer])
  exact ⟨s,s',err,hrun,himporter,hrun',hsending,hstuck⟩

end ImportSystem

end Memiavl
