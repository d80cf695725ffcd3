import Memiavl.Library.Uvarint

/-! The repair of a segment of the write-ahead log whose last entry was not written completely. -/
namespace Memiavl

open Bytes List

/-- `loadNextBinaryEntry`: the length of the entry in front, or `ErrCorrupt`. `Uvarint` takes the
bytes that `ReadUvarint` takes. -/
def loadNextBinaryEntry (data : Bytes) : Option ℕ :=
  match readUvarint data with
  | .error _ => none
  | .ok (size,rest) =>
    if rest.length < size then none else some (data.length-rest.length+size)

/-- The loop of `truncateCorruptedTail`, with a bound on its turns: the position behind the last
whole entry, and the data that is left. -/
def scanEntries : ℕ → ℕ → Bytes → ℕ × Bytes
  | 0,pos,data => (pos,data)
  | fuel+1,pos,data =>
    if data.length = 0 then (pos,data)
    else match loadNextBinaryEntry data with
      | none => (pos,data)
      | some n => scanEntries fuel (pos+n) (data.drop n)

/-- `truncateCorruptedTail` of a file with binary entries. The file is cut if the position differs
from the length of what is left of the data. -/
def truncateCorruptedTail (file : Bytes) : Bytes :=
  let (pos,data) := scanEntries file.length 0 file
  if pos ≠ data.length then file.take pos else file

/-- A length and as many bytes. -/
def WholeEntry (entry : Bytes) : Prop := ∃ body, Framed entry body

/-- A file that has only whole entries. -/
def WholeFile (file : Bytes) : Prop := ∃ entries : List Bytes,
  file = entries.flatten ∧ ∀ e ∈ entries, WholeEntry e

/-- Nothing whole stands in front. -/
def Damaged (data : Bytes) : Prop := data ≠ [] ∧ ∀ entry, WholeEntry entry → ¬entry <+: data

/-- The file after a repair is the longest part of the file in front that has only whole entries. -/
structure Repaired (file repaired : Bytes) : Prop where
  whole : WholeFile repaired
  front : repaired <+: file
  longest : ∀ part, WholeFile part → part <+: file → part <+: repaired

theorem WholeEntry.ne_nil {entry : Bytes} (h : WholeEntry entry) : entry ≠ [] := by
  obtain ⟨body,hframed⟩ := h
  exact hframed.ne_nil

theorem WholeEntry.loadNext {entry : Bytes} (h : WholeEntry entry) (rest : Bytes) :
    loadNextBinaryEntry (entry ++ rest) = some entry.length := by
  obtain ⟨body,hframed⟩ := h
  have hle := hframed.length_le
  rw [loadNextBinaryEntry,hframed.read]
  simp only [length_append] at hle ⊢
  rw [if_neg (by omega)]
  congr 1
  omega

theorem wholeEntry_of_loadNext {data : Bytes} {n : ℕ} (h : loadNextBinaryEntry data = some n) :
    ∃ entry rest, data = entry ++ rest ∧ entry.length = n ∧ WholeEntry entry := by
  unfold loadNextBinaryEntry at h
  cases hread : readUvarint data with
  | error err =>
    rw [hread] at h
    cases h
  | ok r =>
    obtain ⟨size,rest⟩ := r
    rw [hread] at h
    simp only at h
    split_ifs at h with hshort
    obtain ⟨entry,rfl,hframed⟩ := framed_of_read hread (not_lt.mp hshort)
    refine ⟨entry,rest.drop size,rfl,?_,_,hframed⟩
    have hle := hframed.length_le
    rw [← Option.some.inj h,length_append,length_drop]
    simp only [length_append,length_take] at hle
    omega

theorem loadNext_eq_none_iff {data : Bytes} (hne : data ≠ []) :
    loadNextBinaryEntry data = none ↔ Damaged data := by
  constructor
  · rintro h
    refine ⟨hne,fun entry hentry hfront => ?_⟩
    obtain ⟨rest,rfl⟩ := hfront
    rw [hentry.loadNext] at h
    cases h
  · rintro ⟨-,hnone⟩
    refine Option.eq_none_iff_forall_ne_some.mpr fun n hn => ?_
    obtain ⟨entry,rest,rfl,-,hentry⟩ := wholeEntry_of_loadNext hn
    exact hnone entry hentry (prefix_append ..)

theorem wholeFile_nil : WholeFile [] := ⟨[],rfl,by simp⟩

theorem WholeEntry.append {entry file : Bytes} (h : WholeEntry entry) (hfile : WholeFile file) :
    WholeFile (entry ++ file) := by
  obtain ⟨entries,rfl,hall⟩ := hfile
  exact ⟨entry::entries,rfl,forall_mem_cons.mpr ⟨h,hall⟩⟩

/-- Entries in front of the same data are the same. -/
theorem WholeEntry.eq_of_append {entry entry' rest rest' : Bytes} (h : WholeEntry entry)
    (h' : WholeEntry entry') (heq : entry ++ rest = entry' ++ rest') : entry = entry' ∧ rest = rest' := by
  have hlen := h.loadNext rest
  rw [heq,h'.loadNext] at hlen
  exact append_inj heq (Option.some.inj hlen).symm

/-- The loop stops behind the whole entries in front, at the end or at damage. -/
theorem scanEntries_spec {fuel pos : ℕ} {data : Bytes} (hfuel : data.length ≤ fuel) :
    ∃ whole rest, data = whole ++ rest ∧ WholeFile whole ∧ (rest = [] ∨ Damaged rest) ∧
      scanEntries fuel pos data = (pos+whole.length,rest) := by
  induction fuel generalizing pos data with
  | zero =>
    obtain rfl := length_eq_zero_iff.mp (Nat.le_zero.mp hfuel)
    exact ⟨[],[],rfl,wholeFile_nil,.inl rfl,rfl⟩
  | succ fuel ih =>
    rw [scanEntries]
    split_ifs with hempty
    · obtain rfl := length_eq_zero_iff.mp hempty
      exact ⟨[],[],rfl,wholeFile_nil,.inl rfl,rfl⟩
    · have hne : data ≠ [] := fun h => hempty (by rw [h]; rfl)
      cases hnext : loadNextBinaryEntry data with
      | none => exact ⟨[],data,rfl,wholeFile_nil,.inr ((loadNext_eq_none_iff hne).mp hnext),rfl⟩
      | some n =>
        obtain ⟨entry,rest,rfl,rfl,hentry⟩ := wholeEntry_of_loadNext hnext
        have hpos := length_pos_of_ne_nil hentry.ne_nil
        rw [length_append] at hfuel
        obtain ⟨whole,rest',rfl,hwhole,hend,hscan⟩ := @ih (pos+entry.length) rest (by omega)
        refine ⟨entry ++ whole,rest',by simp,hentry.append hwhole,hend,?_⟩
        simp only [drop_left,hscan,length_append]
        rw [Nat.add_assoc]

/-- No part with only whole entries goes on into damage. -/
theorem WholeFile.prefix_of_damaged {part whole rest : Bytes} (hpart : WholeFile part)
    (hwhole : WholeFile whole) (hend : rest = [] ∨ Damaged rest) (h : part <+: whole ++ rest) :
    part <+: whole := by
  obtain ⟨entries,rfl,hall⟩ := hpart
  induction entries generalizing whole with
  | nil => exact nil_prefix
  | cons entry entries ih =>
    obtain ⟨hentry,hentries⟩ := forall_mem_cons.mp hall
    obtain ⟨tail,htail⟩ := h
    obtain ⟨entries',rfl,hall'⟩ := hwhole
    cases entries' with
    | nil =>
      -- An entry of the part would stand in front of the damage.
      obtain rfl | hdamaged := hend
      · have hnil := append_eq_nil_iff.mp (append_eq_nil_iff.mp htail).1
        exact absurd hnil.1 hentry.ne_nil
      · refine absurd ?_ (hdamaged.2 entry hentry)
        exact ⟨entries.flatten ++ tail,by simpa using htail⟩
    | cons entry' entries' =>
      obtain ⟨hentry',hentries'⟩ := forall_mem_cons.mp hall'
      simp only [flatten_cons,append_assoc] at htail ⊢
      obtain ⟨rfl,hrest⟩ := hentry.eq_of_append hentry' htail
      exact (prefix_append_right_inj entry).mpr
        (ih ⟨entries',rfl,hentries'⟩ hentries ⟨tail,hrest⟩)

theorem repaired_iff {whole rest repaired : Bytes} (hwhole : WholeFile whole)
    (hend : rest = [] ∨ Damaged rest) : Repaired (whole ++ rest) repaired ↔ repaired = whole := by
  constructor
  · intro h
    have hle := h.whole.prefix_of_damaged hwhole hend h.front
    have hge := h.longest whole hwhole (prefix_append ..)
    exact hle.eq_of_length_le hge.length_le
  · rintro rfl
    exact ⟨hwhole,prefix_append ..,fun part hpart h => hpart.prefix_of_damaged hwhole hend h⟩

/-- Whole entries and what follows them are told apart in one way only. -/
theorem WholeFile.eq_of_append {whole whole' rest rest' : Bytes} (hwhole : WholeFile whole)
    (hend : rest = [] ∨ Damaged rest) (hwhole' : WholeFile whole') (hend' : rest' = [] ∨ Damaged rest')
    (h : whole ++ rest = whole' ++ rest') : whole = whole' ∧ rest = rest' := by
  have h₁ := hwhole.prefix_of_damaged hwhole' hend' ⟨rest,h⟩
  have h₂ := hwhole'.prefix_of_damaged hwhole hend ⟨rest',h.symm⟩
  obtain rfl := h₁.eq_of_length_le h₂.length_le
  exact ⟨rfl,append_cancel_left h⟩

theorem scanEntries_append {whole rest : Bytes} (hwhole : WholeFile whole)
    (hend : rest = [] ∨ Damaged rest) :
    scanEntries (whole ++ rest).length 0 (whole ++ rest) = (whole.length,rest) := by
  obtain ⟨whole',rest',heq,hwhole',hend',hscan⟩ := @scanEntries_spec _ 0 (whole ++ rest) le_rfl
  obtain ⟨rfl,rfl⟩ := hwhole.eq_of_append hend hwhole' hend' heq
  rw [hscan,Nat.zero_add]

theorem truncateCorruptedTail_append {whole rest : Bytes} (hwhole : WholeFile whole)
    (hend : rest = [] ∨ Damaged rest) : truncateCorruptedTail (whole ++ rest) =
      if whole.length ≠ rest.length then whole else whole ++ rest := by
  rw [truncateCorruptedTail,scanEntries_append hwhole hend]
  simp only [take_left]

/-- A segment is repaired unless the damage is as long as the whole entries in front of it. -/
theorem truncateCorruptedTail_repairs_iff (file : Bytes) :
    Repaired file (truncateCorruptedTail file) ↔
      ∀ whole damage, file = whole ++ damage → WholeFile whole → Damaged damage →
        whole.length ≠ damage.length := by
  obtain ⟨whole,rest,rfl,hwhole,hend,-⟩ := @scanEntries_spec file.length 0 file le_rfl
  rw [repaired_iff hwhole hend,truncateCorruptedTail_append hwhole hend]
  constructor
  · intro h whole' damage heq hwhole' hdamage hlen
    obtain ⟨rfl,rfl⟩ := hwhole.eq_of_append hend hwhole' (.inr hdamage) heq
    rw [if_neg (not_not.mpr hlen)] at h
    exact hdamage.1 (append_right_eq_self.mp h)
  · intro h
    split_ifs with hlen
    · rfl
    · obtain rfl | hdamaged := hend
      · exact List.append_nil _
      · exact absurd (not_not.mp hlen) (h whole rest rfl hwhole hdamaged)

/-- A segment with a whole entry of two bytes and two bytes of the next one stays as it is. -/
theorem truncateCorruptedTail_keeps_damage :
    truncateCorruptedTail [1,0,5,0] = [1,0,5,0] ∧
      ¬Repaired [1,0,5,0] (truncateCorruptedTail [1,0,5,0]) := by
  have hwhole : WholeFile [1,0] := ⟨[[1,0]],rfl,by simpa using ⟨[0],[1],rfl,by decide +kernel⟩⟩
  have hdamaged : Damaged [5,0] := (loadNext_eq_none_iff (by simp)).mp (by decide +kernel)
  have hkept : truncateCorruptedTail [1,0,5,0] = [1,0,5,0] := by decide +kernel
  refine ⟨hkept,fun h => ?_⟩
  rw [hkept] at h
  cases (repaired_iff hwhole (.inr hdamaged)).mp h

end Memiavl
