import Mathlib.Data.List.Sort
import Mathlib.Data.List.Dedup
import Mathlib.Data.Finset.Sort

/-! A map from keys and timestamps to values or deletions, kept in the order of a store with
timestamps: the keys ascend, and of one key the newest record comes first. A read at a time finds
the newest record up to then. What is read is what the replay of all writes up to then gives, in
the order of their times. -/

namespace TimedMap

/-- A value that was put, or a deletion. -/
@[ext] structure Record (κ τ ν : Type) where
  key : κ
  time : τ
  value : Option ν
  deriving DecidableEq

variable {κ τ ν : Type} [LinearOrder κ] [LinearOrder τ]

/-- The order of the records. -/
def Before (a b : Record κ τ ν) : Prop := a.key < b.key ∨ a.key = b.key ∧ b.time < a.time

instance (a b : Record κ τ ν) : Decidable (Before a b) :=
  inferInstanceAs (Decidable (_ ∨ _))

/-- Records with the same key and time. -/
def SameSlot (a b : Record κ τ ν) : Prop := a.key = b.key ∧ a.time = b.time

theorem before_trichotomy (a b : Record κ τ ν) : Before a b ∨ SameSlot a b ∨ Before b a := by
  rcases lt_trichotomy a.key b.key with h | h | h
  · exact .inl (.inl h)
  · rcases lt_trichotomy a.time b.time with ht | ht | ht
    · exact .inr (.inr (.inr ⟨h.symm,ht⟩))
    · exact .inr (.inl ⟨h,ht⟩)
    · exact .inl (.inr ⟨h,ht⟩)
  · exact .inr (.inr (.inl h))

variable {a b : Record κ τ ν} {l : List (Record κ τ ν)}

theorem Before.trans {c : Record κ τ ν} (h : Before a b) (h' : Before b c) : Before a c := by
  rcases h with h | ⟨h,ht⟩
  · rcases h' with h' | ⟨h',-⟩
    · exact .inl (h.trans h')
    · exact .inl (h' ▸ h)
  · rcases h' with h' | ⟨h',ht'⟩
    · exact .inl (h ▸ h')
    · exact .inr ⟨h.trans h',ht'.trans ht⟩

theorem Before.not_same (h : Before a b) : ¬SameSlot a b := by
  rintro ⟨hk,ht⟩
  rcases h with h | ⟨-,h⟩
  · exact h.ne hk
  · exact h.ne ht.symm

theorem Before.of_same {c : Record κ τ ν} (h : SameSlot a b) (h' : Before b c) : Before a c := by
  rcases h' with h' | ⟨h',ht⟩
  · exact .inl (h.1 ▸ h')
  · exact .inr ⟨h.1.trans h',h.2 ▸ ht⟩

/-- Writes a record, in the place of one with the same key and time. -/
def put (r : Record κ τ ν) : List (Record κ τ ν) → List (Record κ τ ν)
  | [] => [r]
  | x::xs => if Before r x then r::x::xs else if Before x r then x::put r xs else r::xs

theorem mem_of_mem_put {r x : Record κ τ ν} (h : x ∈ put r l) : x = r ∨ x ∈ l := by
  induction l with
  | nil => exact .inl (List.mem_singleton.mp h)
  | cons y l ih =>
    unfold put at h
    split_ifs at h
    · exact List.mem_cons.mp h
    · rcases List.mem_cons.mp h with rfl | h
      · exact .inr (by simp)
      · exact (ih h).imp_right fun h => by simp [h]
    · rcases List.mem_cons.mp h with rfl | h
      · exact .inl rfl
      · exact .inr (by simp [h])

theorem sorted_put (hl : l.Pairwise Before) (r : Record κ τ ν) : (put r l).Pairwise Before := by
  induction l with
  | nil => exact List.pairwise_singleton ..
  | cons x l ih =>
    obtain ⟨hx,hl⟩ := List.pairwise_cons.mp hl
    unfold put
    split_ifs with h h'
    · refine List.pairwise_cons.mpr ⟨fun y hy => ?_,List.pairwise_cons.mpr ⟨hx,hl⟩⟩
      rcases List.mem_cons.mp hy with rfl | hy
      · exact h
      · exact h.trans (hx y hy)
    · refine List.pairwise_cons.mpr ⟨fun y hy => ?_,ih hl⟩
      rcases mem_of_mem_put hy with rfl | hy
      · exact h'
      · exact hx y hy
    · have hsame : SameSlot r x := ((before_trichotomy r x).resolve_left h).resolve_right h'
      exact List.pairwise_cons.mpr ⟨fun y hy => .of_same hsame (hx y hy),hl⟩

theorem mem_put {r x : Record κ τ ν} (hl : l.Pairwise Before) :
    x ∈ put r l ↔ x = r ∨ x ∈ l ∧ ¬SameSlot x r := by
  induction l with
  | nil => simp [put]
  | cons y l ih =>
    obtain ⟨hy,hl⟩ := List.pairwise_cons.mp hl
    unfold put
    split_ifs with h h'
    · -- All records behind `r` are in other slots.
      have hother : ∀ z ∈ y::l, ¬SameSlot z r := by
        intro z hz hsame
        have hbefore : Before r z := by
          rcases List.mem_cons.mp hz with rfl | hz
          · exact h
          · exact h.trans (hy z hz)
        exact hbefore.not_same ⟨hsame.1.symm,hsame.2.symm⟩
      rw [List.mem_cons]
      exact or_congr_right ⟨fun hx => ⟨hx,hother x hx⟩,fun hx => hx.1⟩
    · have hne := h'.not_same
      simp only [List.mem_cons,ih hl]
      constructor
      · rintro (rfl | rfl | ⟨hx,hs⟩)
        · exact .inr ⟨.inl rfl,hne⟩
        · exact .inl rfl
        · exact .inr ⟨.inr hx,hs⟩
      · rintro (rfl | ⟨rfl | hx,hs⟩)
        · exact .inr (.inl rfl)
        · exact .inl rfl
        · exact .inr (.inr ⟨hx,hs⟩)
    · have hsame : SameSlot r y := ((before_trichotomy r y).resolve_left h).resolve_right h'
      have hother : ∀ z ∈ l, ¬SameSlot z r := fun z hz hs =>
        (hy z hz).not_same ⟨(hs.1.trans hsame.1).symm,(hs.2.trans hsame.2).symm⟩
      simp only [List.mem_cons]
      constructor
      · rintro (rfl | hx)
        · exact .inl rfl
        · exact .inr ⟨.inr hx,hother x hx⟩
      · rintro (rfl | ⟨rfl | hx,hs⟩)
        · exact .inl rfl
        · exact absurd ⟨hsame.1.symm,hsame.2.symm⟩ hs
        · exact .inr hx

end TimedMap

structure TimedMap (κ τ ν : Type) [LinearOrder κ] [LinearOrder τ] where
  records : List (TimedMap.Record κ τ ν) := []
  sorted : records.Pairwise TimedMap.Before := by simp

namespace TimedMap

variable {κ τ ν : Type} [LinearOrder κ] [LinearOrder τ]

def write (m : TimedMap κ τ ν) (r : Record κ τ ν) : TimedMap κ τ ν :=
  ⟨put r m.records,sorted_put m.sorted r⟩

def writeAll (m : TimedMap κ τ ν) (ws : List (Record κ τ ν)) : TimedMap κ τ ν := ws.foldl write m

/-- The newest record of a key up to a time. -/
def read (m : TimedMap κ τ ν) (k : κ) (t : τ) : Option (Record κ τ ν) :=
  m.records.find? fun r => r.key = k ∧ r.time ≤ t

/-- The last of the writes to a key and time. -/
def lastWrite (ws : List (Record κ τ ν)) (k : κ) (t : τ) : Option (Record κ τ ν) :=
  (ws.filter fun r => r.key = k ∧ r.time = t).getLast?

theorem mem_writeAll (ws : List (Record κ τ ν)) (r : Record κ τ ν) :
    r ∈ (writeAll {} ws).records ↔ lastWrite ws r.key r.time = some r := by
  induction ws using List.reverseRecOn with
  | nil => simp [writeAll,lastWrite]
  | append_singleton ws w ih =>
    have hstep : (writeAll {} (ws ++ [w])).records = put w (writeAll {} ws).records := by
      simp [writeAll,write]
    rw [hstep,mem_put (writeAll {} ws).sorted,ih,lastWrite,lastWrite,List.filter_append]
    by_cases hsame : w.key = r.key ∧ w.time = r.time
    · have hslot : SameSlot r w := ⟨hsame.1.symm,hsame.2.symm⟩
      simp [hsame,hslot,eq_comm]
    · have hslot : ¬SameSlot r w := fun h => hsame ⟨h.1.symm,h.2.symm⟩
      have hne : r ≠ w := fun h => hslot (h ▸ ⟨rfl,rfl⟩)
      simp [hsame,hslot,hne]

theorem Before.time_lt {a b : Record κ τ ν} (h : Before a b) (hk : a.key = b.key) :
    b.time < a.time := by
  rcases h with h | ⟨-,h⟩
  · exact absurd hk h.ne
  · exact h

variable {m : TimedMap κ τ ν} {k : κ} {t : τ} {r : Record κ τ ν} {ws : List (Record κ τ ν)}

theorem read_eq_some_iff :
    m.read k t = some r ↔ r ∈ m.records ∧ r.key = k ∧ r.time ≤ t ∧
      ∀ x ∈ m.records, x.key = k → x.time ≤ t → x.time ≤ r.time := by
  obtain ⟨l,hl⟩ := m
  simp only [read]
  induction l with
  | nil => simp
  | cons y l ih =>
    obtain ⟨hy,hl⟩ := List.pairwise_cons.mp hl
    rw [List.find?_cons]
    by_cases hhit : y.key = k ∧ y.time ≤ t
    · simp only [hhit,and_self,decide_true,Option.some.injEq]
      constructor
      · rintro rfl
        refine ⟨by simp,hhit.1,hhit.2,fun x hx hk _ => ?_⟩
        rcases List.mem_cons.mp hx with rfl | hx
        · exact le_rfl
        · exact ((hy x hx).time_lt (hhit.1.trans hk.symm)).le
      · rintro ⟨hr,hk,-,hmax⟩
        rcases List.mem_cons.mp hr with rfl | hr
        · rfl
        · have hlt := (hy r hr).time_lt (hhit.1.trans hk.symm)
          exact absurd (hmax y (by simp) hhit.1 hhit.2) (not_le.mpr hlt)
    · simp only [hhit,decide_false]
      rw [ih hl]
      constructor
      · rintro ⟨hr,hk,ht,hmax⟩
        refine ⟨by simp [hr],hk,ht,fun x hx hxk hxt => ?_⟩
        rcases List.mem_cons.mp hx with rfl | hx
        · exact absurd ⟨hxk,hxt⟩ hhit
        · exact hmax x hx hxk hxt
      · rintro ⟨hr,hk,ht,hmax⟩
        rcases List.mem_cons.mp hr with rfl | hr
        · exact absurd ⟨hk,ht⟩ hhit
        · exact ⟨hr,hk,ht,fun x hx => hmax x (by simp [hx])⟩

theorem read_eq_none_iff : m.read k t = none ↔ ∀ x ∈ m.records, x.key = k → ¬x.time ≤ t := by
  simp [read,List.find?_eq_none]

/-- A key with its value and the time it was put. -/
@[ext] structure Visible (κ τ ν : Type) where
  key : κ
  time : τ
  value : ν
  deriving DecidableEq

/-- What a read shows: nothing of a key that is missing or deleted. -/
def shown (k : κ) : Option (Record κ τ ν) → Option (Visible κ τ ν)
  | some ⟨_,time,some value⟩ => some ⟨k,time,value⟩
  | _ => none

/-- The keys that are not deleted at a time, in order, with their values. -/
def visible (m : TimedMap κ τ ν) (t : τ) : List (Visible κ τ ν) :=
  (m.records.map Record.key).dedup.filterMap fun k => shown k (m.read k t)

omit [LinearOrder κ] [LinearOrder τ] in
theorem key_of_shown {r : Option (Record κ τ ν)} {x : Visible κ τ ν} (h : shown k r = some x) :
    x.key = k := by
  unfold shown at h
  split at h
  · cases h
    rfl
  · cases h

theorem mem_visible {x : Visible κ τ ν} :
    x ∈ m.visible t ↔ shown x.key (m.read x.key t) = some x := by
  simp only [visible,List.mem_filterMap,List.mem_dedup,List.mem_map]
  constructor
  · rintro ⟨k,-,h⟩
    rwa [key_of_shown h]
  · intro h
    cases hread : m.read x.key t with
    | none => simp [hread,shown] at h
    | some r =>
      obtain ⟨hr,hk,-,-⟩ := read_eq_some_iff.mp hread
      exact ⟨x.key,⟨r,hr,hk⟩,hread ▸ h⟩

theorem sorted_visible (m : TimedMap κ τ ν) (t : τ) :
    ((m.visible t).map Visible.key).Pairwise (· < ·) := by
  have hle : (m.records.map Record.key).Pairwise (· ≤ ·) := by
    rw [List.pairwise_map]
    exact m.sorted.imp fun h => h.elim le_of_lt fun h => h.1.le
  have hlt : (m.records.map Record.key).dedup.Pairwise (· < ·) :=
    ((hle.sublist (List.dedup_sublist _)).and (List.nodup_dedup _)).imp
      fun h => lt_of_le_of_ne h.1 h.2
  have hsub : ((m.visible t).map Visible.key).Sublist (m.records.map Record.key).dedup := by
    unfold visible
    generalize (m.records.map Record.key).dedup = ks
    induction ks with
    | nil => exact .slnil
    | cons k ks ih =>
      rw [List.filterMap_cons]
      split
      · exact ih.cons k
      · rename_i h
        rw [List.map_cons,key_of_shown h]
        exact ih.cons_cons k
  exact hlt.sublist hsub

abbrev State (κ τ ν : Type) := κ → Option (τ × ν)

def apply (m : State κ τ ν) (w : Record κ τ ν) : State κ τ ν :=
  Function.update m w.key (w.value.map (w.time,·))

def replay (ws : List (Record κ τ ν)) : State κ τ ν := ws.foldl apply fun _ => none

theorem trans_le : IsTrans τ (· ≤ ·) := inferInstance

theorem antisymm_le : Std.Antisymm (α := τ) (· ≤ ·) := inferInstance

/-- Writes in the order of their times, those of one time in the given order. -/
def byTime (ws : List (Record κ τ ν)) : List (Record κ τ ν) :=
  (@Finset.sort τ (ws.map Record.time).toFinset (· ≤ ·) _ trans_le antisymm_le _).flatMap
    fun t => ws.filter fun w => w.time = t

/-- The state after all writes up to a time. -/
def stateAt (ws : List (Record κ τ ν)) (t : τ) : State κ τ ν :=
  replay (byTime (ws.filter fun w => w.time ≤ t))

omit [LinearOrder τ] in
/-- The last write to a key decides. -/
theorem replay_eq (ws : List (Record κ τ ν)) (k : κ) : replay ws k =
    ((ws.filter fun w => w.key = k).getLast?).bind fun w => w.value.map (w.time,·) := by
  induction ws using List.reverseRecOn with
  | nil => rfl
  | append_singleton ws w ih =>
    have hstep : replay (ws ++ [w]) = apply (replay ws) w := by simp [replay]
    rw [hstep,apply,List.filter_append]
    by_cases hk : w.key = k
    · subst hk
      simp
    · rw [Function.update_of_ne (Ne.symm hk),ih]
      simp [hk]

/-- The last element of lists in a row stands in the last one that is not empty. -/
theorem getLast?_flatMap {β : Type} {r : β} {ts : List τ} (hts : ts.Pairwise (· < ·))
    {f : τ → List β} (h : (ts.flatMap f).getLast? = some r) :
    ∃ t ∈ ts, (f t).getLast? = some r ∧ ∀ t' ∈ ts, t < t' → f t' = [] := by
  induction ts using List.reverseRecOn with
  | nil => simp at h
  | append_singleton ts t ih =>
    obtain ⟨hts,-,hlt⟩ := List.pairwise_append.mp hts
    rw [List.flatMap_append,List.flatMap_singleton,List.getLast?_append] at h
    cases hlast : (f t).getLast? with
    | some r' =>
      rw [hlast] at h
      cases h
      refine ⟨t,by simp,hlast,fun t' ht' htt' => ?_⟩
      rcases List.mem_append.mp ht' with ht' | ht'
      · exact absurd (hlt t' ht' t (by simp)) (not_lt.mpr htt'.le)
      · exact absurd htt' (by simp [List.mem_singleton.mp ht'])
    | none =>
      rw [hlast,Option.none_or] at h
      obtain ⟨t₁,ht₁,hr,hempty⟩ := ih hts h
      refine ⟨t₁,by simp [ht₁],hr,fun t' ht' htt' => ?_⟩
      rcases List.mem_append.mp ht' with ht' | ht'
      · exact hempty t' ht' htt'
      · rw [List.mem_singleton.mp ht']
        exact List.getLast?_eq_none_iff.mp hlast

/-- The last of the newest writes to a key, up to a time. -/
def IsNewest (ws : List (Record κ τ ν)) (k : κ) (t : τ) (r : Record κ τ ν) : Prop :=
  lastWrite ws k r.time = some r ∧ r.time ≤ t ∧ ∀ w ∈ ws, w.key = k → w.time ≤ t → w.time ≤ r.time

theorem lastWrite_mem (h : lastWrite ws k t = some r) : r ∈ ws ∧ r.key = k ∧ r.time = t := by
  simpa using List.mem_filter.mp (List.mem_of_getLast? h)

theorem exists_lastWrite {w : Record κ τ ν} (hw : w ∈ ws) :
    ∃ r, lastWrite ws w.key w.time = some r := by
  cases h : lastWrite ws w.key w.time with
  | some r => exact ⟨r,rfl⟩
  | none =>
    rw [lastWrite,List.getLast?_eq_none_iff,List.filter_eq_nil_iff] at h
    exact absurd (h w hw) (by simp)

/-- A read finds the last of the newest writes. -/
theorem read_writeAll : (writeAll {} ws).read k t = some r ↔ IsNewest ws k t r := by
  rw [read_eq_some_iff,mem_writeAll]
  constructor
  · rintro ⟨hlast,rfl,ht,hmax⟩
    refine ⟨hlast,ht,fun w hw hk hwt => ?_⟩
    obtain ⟨x,hx⟩ := exists_lastWrite hw
    obtain ⟨-,hxk,hxt⟩ := lastWrite_mem hx
    rw [← hxt]
    refine hmax x ((mem_writeAll ..).mpr ?_) (hxk.trans hk) (hxt ▸ hwt)
    rwa [hxk,hxt]
  · rintro ⟨hlast,ht,hmax⟩
    obtain ⟨-,hk,-⟩ := lastWrite_mem hlast
    refine ⟨hk ▸ hlast,hk,ht,fun x hx hxk hxt => ?_⟩
    exact hmax x (lastWrite_mem ((mem_writeAll ..).mp hx)).1 hxk hxt

theorem read_writeAll_none :
    (writeAll {} ws).read k t = none ↔ ∀ w ∈ ws, w.key = k → ¬w.time ≤ t := by
  rw [read_eq_none_iff]
  constructor
  · intro h w hw hk
    obtain ⟨x,hx⟩ := exists_lastWrite hw
    obtain ⟨-,hxk,hxt⟩ := lastWrite_mem hx
    rw [← hxt]
    refine h x ((mem_writeAll ..).mpr ?_) (hxk.trans hk)
    rwa [hxk,hxt]
  · intro h x hx
    exact h x (lastWrite_mem ((mem_writeAll ..).mp hx)).1

omit [LinearOrder κ] in
theorem mem_byTime {w : Record κ τ ν} : w ∈ byTime ws ↔ w ∈ ws := by
  simp only [byTime,List.mem_flatMap,Finset.mem_sort,List.mem_toFinset,List.mem_map,
    List.mem_filter,decide_eq_true_eq]
  constructor
  · rintro ⟨t,-,hw,-⟩
    exact hw
  · intro hw
    exact ⟨w.time,⟨w,hw,rfl⟩,hw,rfl⟩

/-- The replay in the order of the times ends with the last of the newest writes. -/
theorem stateAt_of_newest (h : IsNewest ws k t r) : stateAt ws t k = r.value.map (r.time,·) := by
  obtain ⟨hlast,ht,hmax⟩ := h
  obtain ⟨hr,hk,-⟩ := lastWrite_mem hlast
  have hmem : r ∈ (byTime (ws.filter fun w => w.time ≤ t)).filter fun w => w.key = k := by
    simp [mem_byTime,hr,ht,hk]
  have hrow : (byTime (ws.filter fun w => w.time ≤ t)).filter (fun w => w.key = k) =
      (((ws.filter fun w => w.time ≤ t).map Record.time).toFinset.sort (· ≤ ·)).flatMap
        fun t' => ((ws.filter fun w => w.time ≤ t).filter fun w => w.time = t').filter
          fun w => w.key = k := List.filter_flatMap ..
  rw [stateAt,replay_eq]
  rw [hrow] at hmem ⊢
  cases hend : ((((ws.filter fun w => w.time ≤ t).map Record.time).toFinset.sort (· ≤ ·)).flatMap
      fun t' => ((ws.filter fun w => w.time ≤ t).filter fun w => w.time = t').filter
        fun w => w.key = k).getLast? with
  | none =>
    rw [List.getLast?_eq_none_iff.mp hend] at hmem
    cases hmem
  | some x =>
    obtain ⟨t',ht',hx,hlater⟩ := getLast?_flatMap (Finset.sortedLT_sort _).pairwise hend
    have hxmem := List.mem_of_getLast? hx
    simp only [List.mem_filter,decide_eq_true_eq] at hxmem
    obtain ⟨⟨⟨hxws,hxt⟩,rfl⟩,hxk⟩ := hxmem
    -- No newer time than that of `r` has a write to the key, so `x` is of that time.
    have htime : x.time = r.time := by
      refine le_antisymm (hmax x hxws hxk hxt) (not_lt.mp fun hlt => ?_)
      have hnil := hlater r.time (by simpa using ⟨r,⟨hr,ht⟩,rfl⟩) hlt
      rw [List.filter_eq_nil_iff] at hnil
      exact hnil r (by simp [hr,ht]) (by simpa using hk)
    have hsame : (((ws.filter fun w => w.time ≤ t).filter fun w => w.time = x.time).filter
        fun w => w.key = k) = ws.filter fun w => w.key = k ∧ w.time = r.time := by
      rw [List.filter_filter,List.filter_filter]
      refine List.filter_congr fun w hw => ?_
      simp only [htime]
      by_cases hwt : w.time = r.time
      · simp [hwt,ht]
      · simp [hwt]
    rw [hsame] at hx
    have hrx : x = r := Option.some.inj (hx.symm.trans hlast)
    rw [hrx]
    rfl

theorem stateAt_of_none (h : ∀ w ∈ ws, w.key = k → ¬w.time ≤ t) : stateAt ws t k = none := by
  have hnil : (byTime (ws.filter fun w => w.time ≤ t)).filter (fun w => w.key = k) = [] := by
    rw [List.filter_eq_nil_iff]
    intro w hw
    rw [mem_byTime,List.mem_filter,decide_eq_true_eq] at hw
    simpa using fun hk => h w hw.1 hk hw.2
  rw [stateAt,replay_eq,hnil]
  rfl

/-- Of writes at one time, the last one to a key decides. -/
theorem stateAt_of_one_time (h : ∀ w ∈ ws, w.time = t) (k : κ) :
    stateAt ws t k =
      ((ws.filter fun w => w.key = k).getLast?).bind fun w => w.value.map (w.time,·) := by
  have hlast : lastWrite ws k t = (ws.filter fun w => w.key = k).getLast? :=
    congrArg List.getLast? (List.filter_congr fun w hw => by simp [h w hw])
  rw [← hlast]
  cases hr : lastWrite ws k t with
  | none =>
    refine stateAt_of_none fun w hw hk => ?_
    obtain ⟨r,hr'⟩ := exists_lastWrite hw
    rw [hk,h w hw,hr] at hr'
    cases hr'
  | some r =>
    obtain ⟨-,-,htime⟩ := lastWrite_mem hr
    exact stateAt_of_newest ⟨htime ▸ hr,htime.le,fun w hw _ _ => by rw [h w hw,htime]⟩

/-- A read at a time shows what the replay of the writes up to then gives. -/
theorem shown_read (ws : List (Record κ τ ν)) (k : κ) (t : τ) :
    shown k ((writeAll {} ws).read k t) = (stateAt ws t k).map fun p => ⟨k,p.1,p.2⟩ := by
  cases hread : (writeAll {} ws).read k t with
  | none =>
    rw [stateAt_of_none (read_writeAll_none.mp hread)]
    rfl
  | some r =>
    rw [stateAt_of_newest (read_writeAll.mp hread)]
    obtain ⟨_,_,_ | v⟩ := r <;> rfl

/-- Writes to different slots are all kept. -/
theorem mem_writeAll_of_nodup (h : (ws.map fun w => (w.key,w.time)).Nodup) (r : Record κ τ ν) :
    r ∈ (writeAll {} ws).records ↔ r ∈ ws := by
  rw [mem_writeAll]
  constructor
  · exact fun hr => (lastWrite_mem hr).1
  · intro hr
    obtain ⟨r',hr'⟩ := exists_lastWrite hr
    obtain ⟨hmem,hkey,htime⟩ := lastWrite_mem hr'
    have hsame : r' = r := List.inj_on_of_nodup_map h hmem hr (by rw [hkey,htime])
    rw [hr',hsame]

/-- Records in order are determined by their set. -/
theorem eq_of_mem_iff {l l' : List (Record κ τ ν)} (hl : l.Pairwise Before)
    (hl' : l'.Pairwise Before) (h : ∀ r, r ∈ l ↔ r ∈ l') : l = l' := by
  have hnodup : ∀ {l : List (Record κ τ ν)}, l.Pairwise Before → l.Nodup := fun hl =>
    hl.imp fun hab heq => hab.not_same ⟨congrArg Record.key heq,congrArg Record.time heq⟩
  have hperm : l.Perm l' := (List.perm_ext_iff_of_nodup (hnodup hl) (hnodup hl')).mpr h
  refine hperm.eq_of_pairwise (fun a b _ _ hab hba => ?_) hl hl'
  exact absurd ⟨rfl,rfl⟩ (hab.trans hba).not_same

def writesTo (ws : List (Record κ τ ν)) (k : κ) : List (τ × Option ν) :=
  (ws.filter fun w => w.key = k).map fun w => (w.time,w.value)

theorem lastWrite_writesTo (ws : List (Record κ τ ν)) (k : κ) (t : τ) :
    (lastWrite ws k t).map (fun w => (w.time,w.value)) =
      ((writesTo ws k).filter fun p => p.1 = t).getLast? := by
  have hfilter : (ws.filter fun w => w.key = k).filter (fun w => w.time = t) =
      ws.filter fun w => w.key = k ∧ w.time = t := by
    rw [List.filter_filter]
    refine List.filter_congr fun w _ => ?_
    simp [Bool.and_comm]
  rw [writesTo,List.filter_map,lastWrite,List.getLast?_map,← hfilter]
  rfl

/-- The state of a key depends on the writes to that key, whatever the key is. -/
theorem stateAt_congr {κ' : Type} [LinearOrder κ'] {ws' : List (Record κ' τ ν)} {k' : κ'}
    (h : writesTo ws k = writesTo ws' k') (t : τ) : stateAt ws t k = stateAt ws' t k' := by
  have hmem : ∀ w' ∈ ws', w'.key = k' → ∃ w ∈ ws, w.key = k ∧ w.time = w'.time := by
    intro w' hw' hk'
    have hin : (w'.time,w'.value) ∈ writesTo ws k := by
      rw [h]
      exact List.mem_map_of_mem (by simp [hw',hk'])
    obtain ⟨w,hw,heq⟩ := List.mem_map.mp hin
    rw [List.mem_filter,decide_eq_true_eq] at hw
    exact ⟨w,hw.1,hw.2,congrArg Prod.fst heq⟩
  cases hread : (writeAll {} ws).read k t with
  | none =>
    have hnone := read_writeAll_none.mp hread
    rw [stateAt_of_none hnone,stateAt_of_none fun w' hw' hk' => ?_]
    obtain ⟨w,hw,hk,ht⟩ := hmem w' hw' hk'
    exact ht ▸ hnone w hw hk
  | some r =>
    have hr := read_writeAll.mp hread
    obtain ⟨hlast,ht,hmax⟩ := hr
    have hlast' := lastWrite_writesTo ws' k' r.time
    rw [← h,← lastWrite_writesTo,hlast,Option.map_some,Option.map_eq_some_iff] at hlast'
    obtain ⟨r',hr',heq⟩ := hlast'
    obtain ⟨htime,hvalue⟩ := Prod.mk.inj heq
    have hnew : IsNewest ws' k' t r' := by
      refine ⟨htime ▸ hr',htime ▸ ht,fun w' hw' hk' hwt => ?_⟩
      obtain ⟨w,hw,hk,hwtime⟩ := hmem w' hw' hk'
      rw [htime,← hwtime]
      exact hmax w hw hk (hwtime ▸ hwt)
    rw [stateAt_of_newest ⟨hlast,ht,hmax⟩,stateAt_of_newest hnew,htime,hvalue]

end TimedMap
