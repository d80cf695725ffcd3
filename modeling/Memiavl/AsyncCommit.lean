import Memiavl.MultiTree

/-! The goroutine that writes committed entries to the log, with the channels that lead to
it and from it. -/
namespace Memiavl

/-- `walEntry`: an entry with its place in the log. -/
structure WalEntry where
  index : ℕ
  data : WALEntry
  deriving DecidableEq

/-- `writeEntry`: an entry that the log has already is left out. -/
def writeEntry (lastIndex : ℕ) (batch : List (ℕ × WALEntry)) (entry : WalEntry) :
    List (ℕ × WALEntry) :=
  if entry.index ≤ lastIndex then batch else batch ++ [(entry.index,entry.data)]

/-- Where the goroutine of `initAsyncCommit` stands. -/
inductive Writer
  /-- At the receive of `channelBatchRecv`. -/
  | receiving
  /-- Has received an entry and is about to take the length of the channel. -/
  | counting (item : WalEntry)
  | collecting (remaining : ℕ) (result : List WalEntry)
  /-- About to read the last index of the log. -/
  | reading (entries : List WalEntry)
  | writing (batch : List (ℕ × WALEntry))
  /-- At the send of an error on `walQuit`. -/
  | failing (err : String)
  /-- Has returned and closed `walQuit`. -/
  | quit
  deriving DecidableEq

/-- `walChan` and `walQuit` with the goroutine between them. -/
structure AsyncCommit where
  size : ℕ
  queue : List WalEntry := []
  closed : Bool := false
  writer : Writer := .receiving
  deriving DecidableEq

namespace AsyncCommit

/-- `walChan <- entry`. An unbuffered channel hands the entry to a waiting receiver. -/
def send (c : AsyncCommit) (entry : WalEntry) : Option AsyncCommit :=
  if c.queue.length < c.size then some { c with queue := c.queue ++ [entry] }
  else if c.size = 0 ∧ c.writer = .receiving then some { c with writer := .counting entry }
  else none

/-- One step of the goroutine. With `failure := some k` the log fails, in a write after `k`
entries of the batch. -/
def step (c : AsyncCommit) (wal : IndexedLog WALEntry) (failure : Option ℕ) :
    Option (AsyncCommit × IndexedLog WALEntry) :=
  match c.writer,failure with
  | .receiving,none =>
    match c.queue with
    | item::queue => some ({ c with queue, writer := .counting item },wal)
    | [] => if c.closed then some ({ c with writer := .quit },wal) else none
  | .counting item,none => some ({ c with writer := .collecting c.queue.length [item] },wal)
  | .collecting 0 result,none => some ({ c with writer := .reading result },wal)
  | .collecting (n+1) result,none =>
    match c.queue with
    | item::queue => some ({ c with queue, writer := .collecting n (result ++ [item]) },wal)
    | [] => none
  | .reading entries,none =>
    some ({ c with writer := .writing (entries.foldl (writeEntry wal.lastIndex) []) },wal)
  | .reading _,some _ => some ({ c with writer := .failing "input/output error" },wal)
  | .writing batch,none =>
    match wal.writeBatch batch with
    | none => some ({ c with writer := .failing "out of order" },wal)
    | some wal => some ({ c with writer := .receiving },wal)
  | .writing batch,some k =>
    match wal.writeBatch (batch.take k) with
    | none => some ({ c with writer := .failing "out of order" },wal)
    | some wal => some ({ c with writer := .failing "input/output error" },wal)
  | _,_ => none

end AsyncCommit

theorem foldl_writeEntry (lastIndex : ℕ) (batch : List (ℕ × WALEntry)) (entries : List WalEntry) :
    entries.foldl (writeEntry lastIndex) batch =
      batch ++ (entries.filter (lastIndex < ·.index)).map fun e => (e.index,e.data) := by
  induction entries generalizing batch with
  | nil => simp
  | cons e es ih =>
    rw [List.foldl_cons,ih,writeEntry]
    by_cases h : e.index ≤ lastIndex
    · simp [h,Nat.not_lt.mpr h]
    · simp [h,Nat.lt_of_not_le h]

/-- The entries that the goroutine has taken from the channel and not yet written. -/
def Writer.items : Writer → List WalEntry
  | .counting item => [item]
  | .collecting _ result => result
  | .reading entries => entries
  | .writing batch => batch.map fun p => ⟨p.1,p.2⟩
  | .receiving | .failing _ | .quit => []

def Writer.Dead : Writer → Prop
  | .failing _ | .quit => True
  | _ => False

instance (w : Writer) : Decidable w.Dead := by
  unfold Writer.Dead
  split <;> infer_instance

namespace AsyncCommit

/-- Entries that the goroutine is still going to look at, oldest first. -/
def flight (c : AsyncCommit) : List WalEntry :=
  if c.writer.Dead then [] else c.writer.items ++ c.queue

structure Ok (c : AsyncCommit) : Prop where
  fits : c.queue.length ≤ c.size
  counted : ∀ n result, c.writer = .collecting n result → n ≤ c.queue.length

/-- The batch that is about to be written holds no entry that the log has. -/
def Fresh (c : AsyncCommit) (last : ℕ) : Prop :=
  ∀ batch, c.writer = .writing batch → ∀ p ∈ batch, last < p.1

/-- What one step of the goroutine can be. -/
inductive Steps (wal : IndexedLog WALEntry) (failure : Option ℕ) :
    AsyncCommit → AsyncCommit → IndexedLog WALEntry → Prop
  | receive {c : AsyncCommit} {item : WalEntry} {queue : List WalEntry} :
      c.writer = .receiving → c.queue = item::queue →
      Steps wal failure c { c with queue, writer := .counting item } wal
  | quit {c : AsyncCommit} : c.writer = .receiving → c.queue = [] → c.closed = true →
      Steps wal failure c { c with writer := .quit } wal
  | count {c : AsyncCommit} {item : WalEntry} : c.writer = .counting item →
      Steps wal failure c { c with writer := .collecting c.queue.length [item] } wal
  | collect {c : AsyncCommit} {n : ℕ} {result : List WalEntry} {item : WalEntry}
      {queue : List WalEntry} : c.writer = .collecting (n+1) result → c.queue = item::queue →
      Steps wal failure c { c with queue, writer := .collecting n (result ++ [item]) } wal
  | collected {c : AsyncCommit} {result : List WalEntry} : c.writer = .collecting 0 result →
      Steps wal failure c { c with writer := .reading result } wal
  | read {c : AsyncCommit} {entries : List WalEntry} : c.writer = .reading entries →
      Steps wal failure c { c with writer := .writing (entries.foldl (writeEntry wal.lastIndex) []) } wal
  | write {c : AsyncCommit} {batch : List (ℕ × WALEntry)} : c.writer = .writing batch →
      batch.map Prod.fst = List.range' (wal.lastIndex+1) batch.length →
      Steps wal failure c { c with writer := .receiving } (wal.append (batch.map Prod.snd))
  | refuse {c : AsyncCommit} {batch : List (ℕ × WALEntry)} {err : String} :
      c.writer = .writing batch →
      batch.map Prod.fst ≠ List.range' (wal.lastIndex+1) batch.length →
      Steps wal failure c { c with writer := .failing err } wal
  | fail {c : AsyncCommit} {xs : List WALEntry} {err : String} : failure.isSome = true →
      (∃ entries, c.writer = .reading entries) ∨ (∃ batch, c.writer = .writing batch) →
      Steps wal failure c { c with writer := .failing err } (wal.append xs)

variable {c c' : AsyncCommit} {wal wal' : IndexedLog WALEntry} {failure : Option ℕ}

theorem steps_writing {batch : List (ℕ × WALEntry)} (hw : c.writer = .writing batch)
    (h : c.step wal failure = some (c',wal')) : Steps wal failure c c' wal' := by
  unfold step at h
  rw [hw] at h
  cases failure with
  | none =>
    simp only at h
    split at h
    · rename_i hb
      cases h
      refine .refuse hw fun hi => ?_
      rw [IndexedLog.writeBatch_eq_some.mpr ⟨hi,rfl⟩] at hb
      cases hb
    · rename_i hb
      cases h
      obtain ⟨hi,rfl⟩ := IndexedLog.writeBatch_eq_some.mp hb
      exact .write hw hi
  | some k =>
    simp only at h
    split at h
    · cases h
      simpa using @Steps.fail wal (some k) c [] "out of order" rfl (.inr ⟨batch,hw⟩)
    · rename_i hb
      cases h
      obtain ⟨-,rfl⟩ := IndexedLog.writeBatch_eq_some.mp hb
      exact .fail rfl (.inr ⟨batch,hw⟩)

theorem steps_of_step (h : c.step wal failure = some (c',wal')) :
    Steps wal failure c c' wal' := by
  cases hw : c.writer with
  | writing batch => exact steps_writing hw h
  | receiving =>
    cases failure <;> simp only [step,hw] at h
    · split at h
      · rename_i hq
        cases h
        exact .receive hw hq
      · rename_i hq
        simp only [Option.ite_none_right_eq_some] at h
        obtain ⟨hclosed,h⟩ := h
        cases h
        exact .quit hw hq hclosed
    · cases h
  | counting item =>
    cases failure <;> simp only [step,hw] at h <;> cases h
    exact .count hw
  | collecting n result =>
    cases n <;> cases failure <;> simp only [step,hw] at h
    · cases h
      exact .collected hw
    · cases h
    · split at h
      · rename_i hq
        cases h
        exact .collect hw hq
      · cases h
    · cases h
  | reading entries =>
    cases failure with
    | none =>
      simp only [step,hw] at h
      cases h
      exact .read hw
    | some k =>
      simp only [step,hw] at h
      cases h
      simpa using @Steps.fail wal (some k) c [] "input/output error" rfl (.inl ⟨entries,hw⟩)
  | failing e | quit => cases failure <;> simp only [step,hw] at h <;> cases h

theorem flight_of_alive (h : ¬c.writer.Dead) : c.flight = c.writer.items ++ c.queue := if_neg h

theorem flight_of_dead (h : c.writer.Dead) : c.flight = [] := if_pos h

theorem Steps.ok (h : Steps wal failure c c' wal') (hc : c.Ok) :
    c'.Ok ∧ c'.size = c.size ∧ c'.closed = c.closed := by
  have hfits := hc.fits
  cases h with
  | receive hw hq =>
    rw [hq,List.length_cons] at hfits
    exact ⟨⟨by simp only; omega,by simp⟩,rfl,rfl⟩
  | count hw =>
    refine ⟨⟨hfits,?_⟩,rfl,rfl⟩
    rintro n result ⟨⟩
    exact le_rfl
  | collect hw hq =>
    have hn := hc.counted _ _ hw
    rw [hq,List.length_cons] at hfits hn
    refine ⟨⟨by simp only; omega,?_⟩,rfl,rfl⟩
    rintro n result ⟨⟩
    simp only
    omega
  | quit | collected | read | write | refuse | fail => exact ⟨⟨hfits,by simp⟩,rfl,rfl⟩

theorem Steps.fresh (h : Steps wal failure c c' wal') : c'.Fresh wal'.lastIndex := by
  cases h with
  | @read entries hw =>
    rintro batch ⟨⟩ p hp
    simp only [foldl_writeEntry,List.nil_append,List.mem_map,List.mem_filter,
      decide_eq_true_eq] at hp
    obtain ⟨e,he,rfl⟩ := hp
    exact he.2
  | receive | quit | count | collect | collected | write | refuse | fail => simp [Fresh]

theorem Fresh.send {last : ℕ} {entry : WalEntry} (hf : c.Fresh last) (h : c.send entry = some c') :
    c'.Fresh last := by
  unfold AsyncCommit.send at h
  split at h
  · cases h
    exact hf
  · simp only [Option.ite_none_right_eq_some] at h
    obtain ⟨-,h⟩ := h
    cases h
    simp [Fresh]

/-- What one step does to the entries on their way and to the log. -/
inductive Effect (failure : Option ℕ) (c : AsyncCommit) (wal : IndexedLog WALEntry)
    (c' : AsyncCommit) (wal' : IndexedLog WALEntry) : Prop
  | moved : c'.flight = c.flight → wal' = wal → Effect failure c wal c' wal'
  | skipped (es rest : List WalEntry) : c.flight = es ++ rest →
      c'.flight = es.filter (wal.lastIndex < ·.index) ++ rest → wal' = wal → Effect failure c wal c' wal'
  | wrote (es rest : List WalEntry) : c.flight = es ++ rest →
      es.map WalEntry.index = List.range' (wal.lastIndex+1) es.length →
      wal' = wal.append (es.map WalEntry.data) → c'.flight = rest → Effect failure c wal c' wal'
  | refused (batch : List (ℕ × WALEntry)) (e : String) : c.writer = .writing batch →
      batch.map Prod.fst ≠ List.range' (wal.lastIndex+1) batch.length →
      c'.writer = .failing e → wal' = wal → Effect failure c wal c' wal'
  | failed (xs : List WALEntry) (e : String) : failure.isSome = true → c'.writer = .failing e → wal' = wal.append xs →
      Effect failure c wal c' wal'

theorem Steps.effect (h : Steps wal failure c c' wal') : Effect failure c wal c' wal' := by
  cases h with
  | receive hw hq | quit hw hq _ | collect hw hq =>
    exact .moved (by simp [flight,hw,hq,Writer.Dead,Writer.items]) rfl
  | count hw | collected hw => exact .moved (by simp [flight,hw,Writer.Dead,Writer.items]) rfl
  | read hw =>
    refine .skipped _ c.queue (by simp [flight,hw,Writer.Dead,Writer.items]; rfl) ?_ rfl
    simp [flight,Writer.Dead,Writer.items,foldl_writeEntry,Function.comp_def]
  | @write batch hw hi =>
    refine .wrote (batch.map fun p => ⟨p.1,p.2⟩) c.queue ?_ ?_ ?_ ?_
    · simp [flight,hw,Writer.Dead,Writer.items]
    · simpa [Function.comp_def] using hi
    · simp [Function.comp_def]
    · simp [flight,Writer.Dead,Writer.items]
  | refuse hw hi => exact .refused _ _ hw hi rfl rfl
  | fail hf _ => exact .failed _ _ hf rfl rfl

theorem flight_send {entry : WalEntry} (hc : c.Ok) (h : c.send entry = some c') :
    c'.Ok ∧ c'.size = c.size ∧ c'.closed = c.closed ∧
      c'.flight = if c.writer.Dead then [] else c.flight ++ [entry] := by
  unfold send at h
  split at h
  · rename_i hlt
    cases h
    refine ⟨⟨by simp only [List.length_append,List.length_singleton]; omega,?_⟩,rfl,rfl,?_⟩
    · intro n result hw
      have := hc.counted n result hw
      simp only [List.length_append]
      omega
    · simp only [flight]
      split <;> simp
  · split at h
    · rename_i hlt hz
      cases h
      have hq : c.queue = [] := List.eq_nil_of_length_eq_zero (by have := hc.fits; omega)
      refine ⟨⟨hc.fits,by simp⟩,rfl,rfl,?_⟩
      simp [flight,hz.2,Writer.Dead,Writer.items,hq]
    · cases h

end AsyncCommit

end Memiavl
