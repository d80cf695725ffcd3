import Memiavl.VersionDb

/-! `versiondb` as a versioned map: reads and iterators at a version show the map that the writes
of the store up to that version leave behind. -/
namespace Memiavl

open TimedMap List

section
variable {α : Type} {R : α → α → Prop} {p : α → Bool} {l : List α}

theorem takeWhile_eq_filter (hl : l.Pairwise R) (hp : ∀ a b, R a b → p b → p a) :
    l.takeWhile p = l.filter p := by
  induction l with
  | nil => rfl
  | cons a l ih =>
    obtain ⟨ha,hl⟩ := pairwise_cons.mp hl
    rw [takeWhile_cons,filter_cons]
    split
    · rw [ih hl]
    · rename_i hna
      symm
      rw [filter_eq_nil_iff]
      exact fun b hb hpb => hna (hp a b (ha b hb) hpb)

theorem dropWhile_eq_filter (hl : l.Pairwise R) (hp : ∀ a b, R a b → p b → p a) :
    l.dropWhile p = l.filter fun a => !p a := by
  induction l with
  | nil => rfl
  | cons a l ih =>
    obtain ⟨ha,hl⟩ := pairwise_cons.mp hl
    rw [dropWhile_cons,filter_cons]
    split
    · rename_i hpa
      rw [ih hl,if_neg (by simp [hpa])]
    · rename_i hna
      rw [if_pos (by simpa using hna)]
      congr 1
      symm
      rw [filter_eq_self]
      intro b hb
      simpa using fun hpb => hna (hp a b (ha b hb) hpb)

end

namespace RocksDBIterator

/-- The items from the position on, in the direction of the iterator. -/
def rest (it : RocksDBIterator) : List (Visible Bytes UInt64 Bytes) :=
  match it.source.pos with
  | none => []
  | some i => if it.isReverse then (it.source.items.take (i+1)).reverse else it.source.items.drop i

/-- The position is one of the items. -/
def Placed (it : RocksDBIterator) : Prop := ∀ i ∈ it.source.pos, i < it.source.items.length

/-- Skips while in range and of version zero. -/
def skips (it : RocksDBIterator) (x : Visible Bytes UInt64 Bytes) : Bool :=
  it.skipVersionZero && it.inRange x.key && x.time == 0

variable {it : RocksDBIterator}

theorem current_eq (h : it.Placed) : it.source.current = it.rest.head? := by
  obtain ⟨⟨items,pos⟩,pre,start,stop,rev,skip⟩ := it
  cases pos with
  | none => rfl
  | some i =>
    have hi : i < items.length := h i rfl
    cases rev with
    | false => simp [SourceIterator.current,rest]
    | true =>
      simp only [SourceIterator.current,rest,Option.bind_some,if_true,head?_reverse]
      rw [getLast?_take]
      simp [hi]

theorem placed_advance (h : it.Placed) : it.advance.Placed := by
  obtain ⟨⟨items,pos⟩,pre,start,stop,rev,skip⟩ := it
  cases pos with
  | none => cases rev <;> simp [Placed,advance,SourceIterator.next,SourceIterator.prev]
  | some i =>
    have hi : i < items.length := h i rfl
    cases rev with
    | false =>
      intro j hj
      simp only [advance,SourceIterator.next,Option.bind_some,Bool.false_eq_true,if_false] at hj ⊢
      split at hj
      · cases hj
        assumption
      · cases hj
    | true =>
      intro j hj
      simp only [advance,SourceIterator.prev,Option.bind_some,if_true] at hj ⊢
      split at hj
      · cases hj
      · cases hj
        omega

theorem rest_advance (h : it.Placed) : it.advance.rest = it.rest.tail := by
  obtain ⟨⟨items,pos⟩,pre,start,stop,rev,skip⟩ := it
  cases pos with
  | none => cases rev <;> rfl
  | some i =>
    have hi : i < items.length := h i rfl
    cases rev with
    | false =>
      by_cases hlast : i+1 < items.length
      · simp [advance,rest,SourceIterator.next,hlast]
      · have hdrop : items.drop (i+1) = [] := drop_eq_nil_of_le (by omega)
        simp [advance,rest,SourceIterator.next,hlast,hdrop]
    | true =>
      obtain _ | i := i
      · obtain _ | ⟨x,items⟩ := items
        · cases hi
        · rfl
      · have htake : items.take (i+1+1) = items.take (i+1) ++ [items[i+1]] :=
          (take_append_getElem hi).symm
        change (items.take (i+1)).reverse = (items.take (i+1+1)).reverse.tail
        rw [htake,reverse_append]
        rfl

def place (it : RocksDBIterator) (pos : Option ℕ) : RocksDBIterator :=
  { it with source := { it.source with pos } }

theorem advance_eq (it : RocksDBIterator) : ∃ pos, it.advance = it.place pos := by
  obtain ⟨source,pre,start,stop,rev,skip⟩ := it
  cases rev
  · exact ⟨source.next.pos,rfl⟩
  · exact ⟨source.prev.pos,rfl⟩

theorem trySkip_cond (h : it.Placed) :
    (it.skipVersionZero = true ∧ it.valid = true ∧
      it.source.current.any (fun x => decide (x.time = 0)) = true) ↔
      ∃ x ∈ it.rest.head?, it.skips x := by
  rw [valid,current_eq h]
  cases it.rest.head? with
  | none => simp
  | some x => simp [skips,and_assoc]

/-- The loop skips the items of version zero in front. -/
theorem trySkipZeroVersion_spec {fuel : ℕ} (h : it.Placed) (hfuel : it.rest.length ≤ fuel) :
    ∃ pos, it.trySkipZeroVersion fuel = it.place pos ∧
      (it.place pos).Placed ∧ (it.place pos).rest = it.rest.dropWhile it.skips := by
  induction fuel generalizing it with
  | zero =>
    have hnil : it.rest = [] := eq_nil_of_length_eq_zero (by omega)
    refine ⟨it.source.pos,rfl,h,?_⟩
    change it.rest = _
    rw [hnil]
    rfl
  | succ fuel ih =>
    rw [trySkipZeroVersion]
    by_cases hskip : ∃ x ∈ it.rest.head?, it.skips x
    · rw [if_pos ((trySkip_cond h).mpr hskip)]
      obtain ⟨x,hx,hskip⟩ := hskip
      have hrest := eq_cons_of_mem_head? hx
      have hadv := rest_advance h
      obtain ⟨pos,hpos⟩ := advance_eq it
      have hlen : it.advance.rest.length ≤ fuel := by
        rw [hadv,length_tail]
        omega
      obtain ⟨pos',heq,hplaced,hpos'⟩ := ih (placed_advance h) hlen
      rw [hpos] at heq hplaced hpos'
      refine ⟨pos',hpos ▸ heq,hplaced,?_⟩
      change ((it.place pos).place pos').rest = _
      rw [hpos',← hpos,hadv,hrest,tail_cons,dropWhile_cons,if_pos hskip,hpos]
      rfl
    · rw [if_neg fun hc => hskip ((trySkip_cond h).mp hc)]
      refine ⟨it.source.pos,rfl,h,?_⟩
      change it.rest = _
      cases hrest : it.rest with
      | nil => rfl
      | cons x xs =>
        rw [dropWhile_cons,if_neg]
        exact fun hx => hskip ⟨x,by simp [hrest],hx⟩

theorem length_rest_le (it : RocksDBIterator) : it.rest.length ≤ it.source.items.length := by
  unfold rest
  split
  · exact Nat.zero_le _
  · split
    · simp
    · simp

/-- Hidden as a whole by the setting. -/
def hides (it : RocksDBIterator) (x : Visible Bytes UInt64 Bytes) : Bool :=
  it.skipVersionZero && x.time == 0

def strip (it : RocksDBIterator) (x : Visible Bytes UInt64 Bytes) : Bytes × Bytes :=
  (x.key.drop it.storePrefix.length,x.value)

/-- What is in range from the position on, without what is hidden. -/
def yields (it : RocksDBIterator) : List (Visible Bytes UInt64 Bytes) :=
  (it.rest.takeWhile fun x => it.inRange x.key).filter fun x => !it.hides x

theorem takeWhile_dropWhile {α : Type} (p q : α → Bool) (l : List α) :
    ((l.dropWhile fun x => p x && q x).takeWhile p).filter (fun x => !q x) =
      (l.takeWhile p).filter fun x => !q x := by
  induction l with
  | nil => rfl
  | cons x l ih =>
    rw [dropWhile_cons,takeWhile_cons]
    by_cases hp : p x
    · by_cases hq : q x
      · rw [if_pos (by simp [hp,hq]),ih]
        simp [hp,hq]
      · rw [if_neg (by simp [hq]),takeWhile_cons]
    · rw [if_neg (by simp [hp]),takeWhile_cons]

theorem skips_eq (it : RocksDBIterator) : it.skips = fun x => it.inRange x.key && it.hides x := by
  funext x
  simp [skips,hides,Bool.and_left_comm,Bool.and_assoc]

/-- Skipping does not change what an iterator yields. -/
theorem yields_of_dropWhile {pos : Option ℕ} (h : (it.place pos).rest = it.rest.dropWhile it.skips) :
    (it.place pos).yields = it.yields := by
  have hstep := takeWhile_dropWhile (fun x => it.inRange x.key) it.hides it.rest
  rw [yields,h,skips_eq]
  exact hstep

/-- Nothing that has to be skipped stands in front. -/
def Settled (it : RocksDBIterator) : Prop := ∀ x ∈ it.rest.head?, ¬it.skips x

theorem settled_of_dropWhile {pos : Option ℕ} (h : (it.place pos).rest = it.rest.dropWhile it.skips) :
    (it.place pos).Settled := by
  intro x hx
  rw [h] at hx
  have hnot := head?_dropWhile_not it.skips it.rest
  rw [Option.mem_def.mp hx] at hnot
  change ¬it.skips x
  simpa using hnot

theorem consume_eq {fuel : ℕ} (h : it.Placed) (hsettled : it.Settled)
    (hfuel : it.rest.length ≤ fuel) : it.consume fuel = it.yields.map it.strip := by
  induction fuel generalizing it with
  | zero =>
    have hnil : it.rest = [] := eq_nil_of_length_eq_zero (by omega)
    simp [consume,yields,hnil]
  | succ fuel ih =>
    rw [consume,current_eq h]
    cases hrest : it.rest with
    | nil => simp [yields,hrest]
    | cons x xs =>
      have hvalid : it.valid = it.inRange x.key := by
        rw [valid,current_eq h,hrest]
        rfl
      simp only [head?_cons,hvalid]
      by_cases hin : it.inRange x.key
      · have hshown : it.hides x = false := by
          have := hsettled x (by simp [hrest])
          simpa [skips_eq,hin] using this
        have hadv := rest_advance h
        rw [hrest,tail_cons] at hadv
        have hle := length_rest_le it
        rw [hrest,length_cons] at hle hfuel
        obtain ⟨pos,hpos⟩ := advance_eq it
        have hshort : it.advance.rest.length ≤ it.source.items.length := by
          rw [hadv]
          omega
        obtain ⟨pos',heq,hplaced,hpos'⟩ := trySkipZeroVersion_spec (placed_advance h) hshort
        have hnext : it.next = it.advance.place pos' := heq
        rw [if_pos hin,hnext,ih hplaced (settled_of_dropWhile hpos'),yields_of_dropWhile hpos']
        · simp only [yields,hrest,hadv,takeWhile_cons,if_pos hin,filter_cons,hshown,
            Bool.not_false,if_true,map_cons]
          rw [hpos]
          rfl
        · rw [hpos',hadv]
          exact (length_dropWhile_le ..).trans (by omega)
      · rw [if_neg hin,yields,hrest,takeWhile_cons,if_neg hin]
        rfl

theorem items_trySkipZeroVersion (fuel : ℕ) (it : RocksDBIterator) :
    (it.trySkipZeroVersion fuel).source.items = it.source.items := by
  induction fuel generalizing it with
  | zero => rfl
  | succ fuel ih =>
    rw [trySkipZeroVersion]
    split
    · obtain ⟨pos,hpos⟩ := advance_eq it
      rw [ih,hpos]
      rfl
    · rfl

/-- The seeks and skips of a new iterator do not change what it goes over. -/
theorem items_new (source : SourceIterator) (pre : Bytes) (start stop : Option Bytes)
    (reverse skip : Bool) :
    (RocksDBIterator.new source pre start stop reverse skip).source.items = source.items := by
  refine (items_trySkipZeroVersion ..).trans ?_
  cases reverse with
  | false => cases start <;> rfl
  | true =>
    cases stop with
    | none => rfl
    | some stop =>
      simp only [if_true]
      split
      · split <;> rfl
      · rfl

section
variable {items : List (Visible Bytes UInt64 Bytes)} {pre start stop : Bytes} {skip : Bool}

theorem drop_findIdx {α : Type} (p : α → Bool) (l : List α) :
    (match l.findIdx? p with
      | none => []
      | some i => l.drop i) = l.dropWhile fun x => !p x := by
  induction l with
  | nil => rfl
  | cons x l ih =>
    rw [findIdx?_cons,dropWhile_cons]
    by_cases hx : p x
    · simp [hx]
    · rw [if_neg hx,if_pos (by simp [hx]),← ih]
      cases l.findIdx? p <;> rfl

theorem take_findIdx {α : Type} (p : α → Bool) (l : List α) :
    (match l.findIdx? p with
      | none => l
      | some i => l.take i) = l.takeWhile fun x => !p x := by
  induction l with
  | nil => rfl
  | cons x l ih =>
    rw [findIdx?_cons,takeWhile_cons]
    by_cases hx : p x
    · simp [hx]
    · rw [if_neg hx,if_pos (by simp [hx]),← ih]
      cases l.findIdx? p <;> rfl

/-- The keys from `start` on and before `stop` that are not hidden. -/
def inBounds (start stop : Bytes) (skip : Bool) (x : Visible Bytes UInt64 Bytes) : Bool :=
  decide (start ≤ x.key) && decide (x.key < stop) && !(skip && x.time == 0)

theorem consume_new {it : RocksDBIterator} (h : it.Placed) :
    (it.trySkipZeroVersion it.source.items.length).consume (it.source.items.length+1) =
      it.yields.map it.strip := by
  obtain ⟨pos,heq,hplaced,hpos⟩ := trySkipZeroVersion_spec h (length_rest_le it)
  have hle : (it.place pos).rest.length ≤ it.source.items.length := length_rest_le (it.place pos)
  rw [heq,consume_eq hplaced (settled_of_dropWhile hpos) (by omega),yields_of_dropWhile hpos]
  rfl

theorem consume_forward (hitems : (items.map Visible.key).Pairwise (· < ·)) :
    (RocksDBIterator.new ⟨items,none⟩ pre (some start) (some stop) false skip).consume
      (items.length+1) = (items.filter (inBounds start stop skip)).map
        fun x => (x.key.drop pre.length,x.value) := by
  rw [pairwise_map] at hitems
  let source : SourceIterator := ⟨items,items.findIdx? fun x => start ≤ x.key⟩
  have hplaced : Placed ⟨source,pre,some start,some stop,false,skip⟩ := fun i hi =>
    (findIdx?_eq_some_iff_getElem.mp hi).1
  have hrest : rest ⟨source,pre,some start,some stop,false,skip⟩ =
      items.filter fun x => start ≤ x.key := by
    have hdrop := drop_findIdx (fun x : Visible Bytes UInt64 Bytes => decide (start ≤ x.key)) items
    refine hdrop.trans ?_
    rw [dropWhile_eq_filter hitems]
    · simp
    · intro a b hab hb
      simp only [Bool.not_eq_true',decide_eq_false_iff_not,not_le] at hb ⊢
      exact hab.trans hb
  have hmono : ∀ a b : Visible Bytes UInt64 Bytes, a.key < b.key → ¬stop ≤ b.key → ¬stop ≤ a.key :=
    fun a b hab hb h => hb (h.trans hab.le)
  refine (consume_new hplaced).trans ?_
  simp only [yields,hrest]
  rw [takeWhile_eq_filter (hitems.filter _) (fun a b hab hb => by
    simp only [inRange,Bool.false_eq_true,if_false,Option.all_some,decide_eq_true_eq] at hb ⊢
    exact hmono a b hab hb),List.filter_filter,List.filter_filter]
  refine congrArg (List.map _) (List.filter_congr fun x _ => ?_)
  simp [hides,inRange,inBounds,Bool.and_comm,Bool.and_assoc]

/-- The seeks of an iterator in reverse: to the last key before `stop`. -/
theorem new_reverse (items : List (Visible Bytes UInt64 Bytes)) (pre start stop : Bytes)
    (skip : Bool) : ∃ source : SourceIterator,
    RocksDBIterator.new ⟨items,none⟩ pre (some start) (some stop) true skip =
      trySkipZeroVersion source.items.length ⟨source,pre,some start,some stop,true,skip⟩ ∧
    source.items = items ∧ Placed ⟨source,pre,some start,some stop,true,skip⟩ ∧
    rest ⟨source,pre,some start,some stop,true,skip⟩ =
      (items.takeWhile fun x => !decide (stop ≤ x.key)).reverse := by
  have htake := take_findIdx (fun x : Visible Bytes UInt64 Bytes => decide (stop ≤ x.key)) items
  cases hidx : items.findIdx? (fun x => decide (stop ≤ x.key)) with
  | none =>
    rw [hidx] at htake
    refine ⟨SourceIterator.seekToLast ⟨items,none⟩,?_,rfl,?_,?_⟩
    · simp [RocksDBIterator.new,SourceIterator.seek,SourceIterator.current,hidx,
        SourceIterator.seekToLast]
    · intro i hi
      simp only [SourceIterator.seekToLast] at hi ⊢
      split at hi
      · cases hi
      · rename_i hne
        cases hi
        exact Nat.sub_lt (length_pos_of_ne_nil hne) Nat.one_pos
    · rw [← htake,rest]
      simp only [SourceIterator.seekToLast]
      by_cases hnil : items = []
      · simp [hnil]
      · have hpos := length_pos_of_ne_nil hnil
        simp only [hnil,if_false,if_true]
        rw [take_of_length_le (by omega)]
  | some i =>
    rw [hidx] at htake
    obtain ⟨hi,hkey,-⟩ := findIdx?_eq_some_iff_getElem.mp hidx
    have hle : stop ≤ items[i].key := by simpa using hkey
    refine ⟨SourceIterator.prev ⟨items,some i⟩,?_,rfl,?_,?_⟩
    · simp [RocksDBIterator.new,SourceIterator.seek,SourceIterator.current,hidx,hi,hle]
    · intro j hj
      simp only [SourceIterator.prev,Option.bind_some] at hj ⊢
      split at hj
      · cases hj
      · cases hj
        omega
    · rw [← htake,rest]
      simp only [SourceIterator.prev,Option.bind_some]
      obtain _ | i := i
      · rfl
      · rfl

theorem consume_reverse (hitems : (items.map Visible.key).Pairwise (· < ·)) :
    (RocksDBIterator.new ⟨items,none⟩ pre (some start) (some stop) true skip).consume
      (items.length+1) = ((items.filter (inBounds start stop skip)).map
        fun x => (x.key.drop pre.length,x.value)).reverse := by
  rw [pairwise_map] at hitems
  obtain ⟨source,hnew,hsource,hplaced,hrest⟩ :=
    new_reverse items pre start stop skip
  have hconsume := consume_new hplaced
  simp only [hsource] at hconsume hnew
  rw [hnew,hconsume,yields,hrest,takeWhile_eq_filter hitems]
  · rw [← filter_reverse,takeWhile_eq_filter (R := fun a b => b.key < a.key),
      List.filter_filter,List.filter_filter,filter_reverse,map_reverse]
    · congr 1
      refine congrArg (List.map _) (List.filter_congr fun x _ => ?_)
      have hstop : (!decide (stop ≤ x.key)) = decide (x.key < stop) := by
        rw [← decide_not]
        exact decide_eq_decide.mpr not_le
      rw [hstop]
      simp [hides,inRange,inBounds,Bool.and_comm,Bool.and_left_comm,Bool.and_assoc]
    · exact (pairwise_reverse.mpr hitems).filter _
    · intro a b hab hb
      simp only [inRange,if_true,Option.all_some,decide_eq_true_eq] at hb ⊢
      exact fun h => hb (hab.trans h)
  · intro a b hab hb
    simp only [Bool.not_eq_true',decide_eq_false_iff_not,not_le] at hb ⊢
    exact hab.trans hb

end

end RocksDBIterator

theorem append_lt_append_iff (p a b : Bytes) : p ++ a < p ++ b ↔ a < b := by
  induction p with
  | nil => rfl
  | cons x p ih =>
    simp only [cons_append,cons_lt_cons_iff,ih]
    simp

theorem append_le_append_iff (p a b : Bytes) : p ++ a ≤ p ++ b ↔ a ≤ b := by
  rw [← not_lt,append_lt_append_iff,not_lt]

theorem le_append (p a : Bytes) : p ≤ p ++ a := by
  have h := (append_le_append_iff p [] a).mpr (not_lt.mp (not_lt_nil a))
  rwa [List.append_nil] at h

/-- The first key after those of a store. -/
def storeEnd (storeKey : Bytes) : Bytes := [115,47,107,58] ++ storeKey ++ [48]

theorem cpIncr_storePrefix (storeKey : Bytes) :
    cpIncr (storePrefix storeKey) = some (storeEnd storeKey) := by
  simp [cpIncr,storePrefix,storeEnd,cpIncr.incr]

/-- Between a byte string that ends with `/` and the next one of its length. -/
theorem between_iff (q x : Bytes) :
    (q ++ [47] ≤ x ∧ x < q ++ [48]) ↔ ∃ k, x = q ++ [47] ++ k := by
  rw [← not_lt]
  constructor
  · induction q generalizing x with
    | nil =>
      rintro ⟨hle,hlt⟩
      cases x with
      | nil => exact absurd (nil_lt_cons ..) hle
      | cons b x =>
        refine ⟨x,?_⟩
        have hge : (47 : UInt8) ≤ b :=
          not_lt.mp fun h => hle (cons_lt_cons_iff.mpr (.inl h))
        have hb : b < 48 := by
          rcases cons_lt_cons_iff.mp hlt with h | h
          · exact h
          · exact absurd h.2 (not_lt_nil x)
        have hb : b = 47 := by
          rw [UInt8.le_iff_toNat_le] at hge
          rw [UInt8.lt_iff_toNat_lt] at hb
          exact UInt8.toNat_inj.mp (by simp at hge hb ⊢; omega)
        rw [hb]
        rfl
    | cons c q ih =>
      rintro ⟨hle,hlt⟩
      cases x with
      | nil => exact absurd (nil_lt_cons ..) hle
      | cons b x =>
        rw [cons_append,cons_lt_cons_iff] at hle hlt
        rcases hlt with hlt | ⟨rfl,hlt⟩
        · exact absurd (.inl hlt) hle
        · obtain ⟨k,rfl⟩ := ih x ⟨fun h => hle (.inr ⟨rfl,h⟩),hlt⟩
          exact ⟨k,rfl⟩
  · rintro ⟨k,rfl⟩
    refine ⟨not_lt.mpr (le_append ..),?_⟩
    rw [append_assoc,append_lt_append_iff]
    exact cons_lt_cons_iff.mpr (.inl (by decide))

theorem prependStoreKey_lt_iff (storeKey a b : Bytes) :
    prependStoreKey storeKey a < prependStoreKey storeKey b ↔ a < b :=
  append_lt_append_iff ..

theorem prependStoreKey_le_iff (storeKey a b : Bytes) :
    prependStoreKey storeKey a ≤ prependStoreKey storeKey b ↔ a ≤ b :=
  append_le_append_iff ..

theorem in_store_iff (storeKey x : Bytes) :
    (storePrefix storeKey ≤ x ∧ x < storeEnd storeKey) ↔ ∃ key, x = prependStoreKey storeKey key :=
  between_iff ([115,47,107,58] ++ storeKey) x

theorem append_slash_inj {a b k k' : Bytes} (ha : 47 ∉ a) (hb : 47 ∉ b) :
    a ++ 47::k = b ++ 47::k' ↔ a = b ∧ k = k' := by
  induction a generalizing b with
  | nil =>
    cases b with
    | nil => simp
    | cons y b =>
      have hy : (47 : UInt8) ≠ y := fun h => hb (by simp [h])
      simp [hy]
  | cons x a ih =>
    cases b with
    | nil =>
      have hx : x ≠ 47 := fun h => ha (by simp [h])
      simp [hx]
    | cons y b =>
      simp only [mem_cons,not_or] at ha hb
      simp [ih ha.2 hb.2,and_assoc]

/-- Stores do not share keys. -/
theorem prependStoreKey_inj {a b k k' : Bytes} (ha : 47 ∉ a) (hb : 47 ∉ b) :
    prependStoreKey a k = prependStoreKey b k' ↔ a = b ∧ k = k' := by
  simp [prependStoreKey,storePrefix,append_slash_inj ha hb]

namespace VersionStore

/-- The writes of a call, each with its store, at the keys of the store. -/
def Call.writes : Call → List (Bytes × Record Bytes UInt64 Bytes)
  | .putAtVersion version changeSet => changeSet.map fun pair =>
    (pair.storeKey,⟨pair.key,version.toUInt64,if pair.delete then none else some pair.value⟩)
  | .feedChangeSet version store changeSet => changeSet.map fun pair =>
    (store,⟨pair.key,version.toUInt64,if pair.delete then none else some pair.value⟩)
  | .importEntries version entries => entries.map fun entry =>
    (entry.storeKey,⟨entry.key,version.toUInt64,some entry.value⟩)

def prepend (w : Bytes × Record Bytes UInt64 Bytes) : Record Bytes UInt64 Bytes :=
  ⟨prependStoreKey w.1 w.2.key,w.2.time,w.2.value⟩

/-- All writes to a store, in the order of the calls. -/
def writesOf (store : Bytes) (calls : List Call) : List (Record Bytes UInt64 Bytes) :=
  ((calls.flatMap Call.writes).filter fun w => w.1 = store).map Prod.snd

theorem records_call (s : VersionStore) (c : Call) :
    (s.call c).records = s.records.writeAll (c.writes.map prepend) := by
  cases c with
  | putAtVersion version changeSet =>
    simp [call,putAtVersion,setLatestVersion,writeBatch,Call.writes,prepend,recordOf,
      Function.comp_def]
  | feedChangeSet version store changeSet =>
    simp [call,feedChangeSet,writeBatch,Call.writes,prepend,recordOf,Function.comp_def]
  | importEntries version entries =>
    simp [call,importEntries,setLatestVersion,writeBatch,Call.writes,prepend,recordOf,
      Function.comp_def]

theorem skipVersionZero_call (s : VersionStore) (c : Call) :
    (s.call c).skipVersionZero = s.skipVersionZero := by
  cases c <;> rfl

theorem records_run (s : VersionStore) (calls : List Call) :
    (s.run calls).records = s.records.writeAll ((calls.flatMap Call.writes).map prepend) := by
  induction calls generalizing s with
  | nil => rfl
  | cons c calls ih =>
    have hstep : s.run (c::calls) = (s.call c).run calls := rfl
    rw [hstep,ih,records_call]
    simp [writeAll,foldl_append]

theorem skipVersionZero_run (s : VersionStore) (calls : List Call) :
    (s.run calls).skipVersionZero = s.skipVersionZero := by
  induction calls generalizing s with
  | nil => rfl
  | cons c calls ih => exact (ih (s.call c)).trans (skipVersionZero_call s c)

/-- The writes to a key in the column family are those to the key of the store. -/
theorem writesTo_prepend {ws : List (Bytes × Record Bytes UInt64 Bytes)} {store : Bytes}
    (hnames : ∀ w ∈ ws, 47 ∉ w.1) (hstore : 47 ∉ store) (key : Bytes) :
    writesTo (ws.map prepend) (prependStoreKey store key) =
      writesTo ((ws.filter fun w => w.1 = store).map Prod.snd) key := by
  simp only [writesTo,List.filter_map,List.map_map,List.filter_filter]
  have hslot : (fun w : Record Bytes UInt64 Bytes => (w.time,w.value)) ∘ prepend =
      (fun w => (w.time,w.value)) ∘ Prod.snd := rfl
  rw [hslot]
  refine congrArg (List.map _) (List.filter_congr fun w hw => Bool.eq_iff_iff.mpr ?_)
  simp [prepend,prependStoreKey_inj (hnames w hw) hstore,and_comm]

/-- The map a store has at a version, from the replay of its writes up to then. With
`skipVersionZero` values that were put at version zero are hidden. -/
def mapAt (calls : List Call) (skipVersionZero : Bool) (store : Bytes) (version : Option Int64)
    (key : Bytes) : Option Bytes :=
  (stateAt (writesOf store calls) (readTimestamp version) key).bind fun p =>
    if skipVersionZero ∧ p.1 = 0 then none else some p.2

section
variable {calls : List Call} {skip : Bool} {store : Bytes} {version : Option Int64}
  (hnames : ∀ w ∈ calls.flatMap Call.writes, 47 ∉ w.1) (hstore : 47 ∉ store)

include hnames hstore in
theorem shown_run (key : Bytes) :
    shown (prependStoreKey store key) (((run { skipVersionZero := skip } calls).records).read
      (prependStoreKey store key) (readTimestamp version)) =
    (stateAt (writesOf store calls) (readTimestamp version) key).map
      fun p => ⟨prependStoreKey store key,p.1,p.2⟩ := by
  rw [records_run,shown_read,stateAt_congr (writesTo_prepend hnames hstore key)]
  rfl

include hnames hstore in
theorem getAtVersion_run (key : Bytes) :
    (run { skipVersionZero := skip } calls).getAtVersion store key version =
      mapAt calls skip store version key := by
  rw [getAtVersion,shown_run hnames hstore,skipVersionZero_run,mapAt]
  cases stateAt (writesOf store calls) (readTimestamp version) key <;> rfl

theorem iterateWithPrefix_store (store : Bytes) (start stop : Option Bytes) : ∃ last,
    iterateWithPrefix (storePrefix store) start stop =
      (some (prependStoreKey store (start.getD [])),some last) ∧
    ∀ x, (prependStoreKey store (start.getD []) ≤ x ∧ x < last) ↔
      ∃ key, x = prependStoreKey store key ∧ start.getD [] ≤ key ∧ ∀ e ∈ stop, key < e := by
  have hne : storePrefix store ≠ [] := by simp [storePrefix]
  cases stop with
  | none =>
    refine ⟨storeEnd store,by rw [iterateWithPrefix,if_neg hne,cpIncr_storePrefix]; rfl,fun x => ?_⟩
    constructor
    · rintro ⟨hle,hlt⟩
      obtain ⟨key,rfl⟩ := (in_store_iff store x).mp ⟨(le_append ..).trans hle,hlt⟩
      exact ⟨key,rfl,(prependStoreKey_le_iff ..).mp hle,by simp⟩
    · rintro ⟨key,rfl,hle,-⟩
      exact ⟨(prependStoreKey_le_iff ..).mpr hle,((in_store_iff store _).mpr ⟨key,rfl⟩).2⟩
  | some e =>
    refine ⟨prependStoreKey store e,by rw [iterateWithPrefix,if_neg hne]; rfl,fun x => ?_⟩
    constructor
    · rintro ⟨hle,hlt⟩
      have hend := ((in_store_iff store _).mpr ⟨e,rfl⟩).2
      obtain ⟨key,rfl⟩ := (in_store_iff store x).mp ⟨(le_append ..).trans hle,hlt.trans hend⟩
      refine ⟨key,rfl,(prependStoreKey_le_iff ..).mp hle,fun e' he' => ?_⟩
      cases he'
      exact (prependStoreKey_lt_iff ..).mp hlt
    · rintro ⟨key,rfl,hle,hlt⟩
      exact ⟨(prependStoreKey_le_iff ..).mpr hle,(prependStoreKey_lt_iff ..).mpr (hlt e rfl)⟩

/-- The pairs of a store between two bounds, from what is visible at a version. -/
def pairsIn (s : VersionStore) (store : Bytes) (version : Option Int64) (first last : Bytes) :
    List (Bytes × Bytes) :=
  ((s.records.visible (readTimestamp version)).filter
    (RocksDBIterator.inBounds first last s.skipVersionZero)).map
      fun x => (x.key.drop (storePrefix store).length,x.value)

variable {start stop : Option Bytes} {last : Bytes}

theorem iterate_eq (s : VersionStore) (version : Option Int64) (hstart : start ≠ some [])
    (hstop : stop ≠ some []) (h : iterateWithPrefix (storePrefix store) start stop =
      (some (prependStoreKey store (start.getD [])),some last)) :
    let l := s.pairsIn store version (prependStoreKey store (start.getD [])) last
    s.iterate store start stop version false = .ok l ∧
      s.iterate store start stop version true = .ok l.reverse := by
  have hsorted := sorted_visible s.records (readTimestamp version)
  simp only [iterate,iteratorAtVersion,hstart,hstop,or_self,if_false,h,Except.map,
    RocksDBIterator.items_new]
  rw [RocksDBIterator.consume_forward hsorted,RocksDBIterator.consume_reverse hsorted]
  exact ⟨rfl,rfl⟩

include hnames hstore in
theorem mem_pairsIn (h : ∀ x, (prependStoreKey store (start.getD []) ≤ x ∧ x < last) ↔
      ∃ key, x = prependStoreKey store key ∧ start.getD [] ≤ key ∧ ∀ e ∈ stop, key < e)
    (key value : Bytes) :
    (key,value) ∈ (run { skipVersionZero := skip } calls).pairsIn store version
        (prependStoreKey store (start.getD [])) last ↔
      mapAt calls skip store version key = some value ∧ start.getD [] ≤ key ∧
        ∀ e ∈ stop, key < e := by
  have hdrop : ∀ k, (prependStoreKey store k).drop (storePrefix store).length = k := fun k =>
    drop_left
  simp only [pairsIn,List.mem_map,mem_filter,mem_visible,skipVersionZero_run,Prod.mk.injEq,
    RocksDBIterator.inBounds,Bool.and_eq_true,decide_eq_true_eq,h]
  constructor
  · rintro ⟨x,⟨hx,⟨k,hk,hlo,hhi⟩,hshown⟩,hkey,rfl⟩
    rw [hk,hdrop] at hkey
    subst hkey
    rw [hk,shown_run hnames hstore] at hx
    obtain ⟨p,hp,rfl⟩ := Option.map_eq_some_iff.mp hx
    refine ⟨?_,hlo,hhi⟩
    rw [mapAt,hp]
    simpa [imp_iff_not_or] using hshown
  · rintro ⟨hmap,hlo,hhi⟩
    obtain ⟨p,hp,hp'⟩ := Option.bind_eq_some_iff.mp hmap
    split_ifs at hp' with hskip
    cases hp'
    refine ⟨⟨prependStoreKey store key,p.1,p.2⟩,⟨?_,⟨key,rfl,hlo,hhi⟩,?_⟩,hdrop key,rfl⟩
    · rw [shown_run hnames hstore,hp]
      rfl
    · simpa [imp_iff_not_or] using hskip

theorem sorted_pairsIn (s : VersionStore)
    (h : ∀ x, (prependStoreKey store (start.getD []) ≤ x ∧ x < last) ↔
      ∃ key, x = prependStoreKey store key ∧ start.getD [] ≤ key ∧ ∀ e ∈ stop, key < e) :
    ((s.pairsIn store version (prependStoreKey store (start.getD [])) last).map
      Prod.fst).Pairwise (· < ·) := by
  have hsorted := sorted_visible s.records (readTimestamp version)
  rw [pairwise_map] at hsorted
  rw [pairsIn,List.map_map,pairwise_map]
  refine (hsorted.filter _).imp_of_mem fun {x y} hx hy hlt => ?_
  have hkey : ∀ z ∈ (s.records.visible (readTimestamp version)).filter
      (RocksDBIterator.inBounds (prependStoreKey store (start.getD [])) last s.skipVersionZero),
      ∃ key, z.key = prependStoreKey store key := by
    intro z hz
    have hbounds := (mem_filter.mp hz).2
    simp only [RocksDBIterator.inBounds,Bool.and_eq_true,decide_eq_true_eq] at hbounds
    obtain ⟨key,hkey,-⟩ := (h z.key).mp hbounds.1
    exact ⟨key,hkey⟩
  obtain ⟨k,hk⟩ := hkey x hx
  obtain ⟨k',hk'⟩ := hkey y hy
  rw [hk,hk',prependStoreKey_lt_iff] at hlt
  have hdrop : ∀ k, (prependStoreKey store k).drop (storePrefix store).length = k := fun k =>
    drop_left
  simpa [hk,hk',hdrop] using hlt

end

/-- For every history of writes a store reads as the map that the replay of its writes gives, in
the order of their versions as unsigned integers. Iterators yield the pairs of that map with keys
in their range, in either direction. -/
theorem reads_replayed_map (calls : List Call) (skip : Bool) (store : Bytes)
    (version : Option Int64) (hnames : ∀ w ∈ calls.flatMap Call.writes, 47 ∉ w.1)
    (hstore : 47 ∉ store) :
    let s := run { skipVersionZero := skip } calls
    let m := mapAt calls skip store version
    (∀ key, s.getAtVersion store key version = m key ∧
      s.hasAtVersion store key version = (m key).isSome) ∧
    ∀ start stop : Option Bytes, start ≠ some [] → stop ≠ some [] → ∃ l,
      s.iterate store start stop version false = .ok l ∧
      s.iterate store start stop version true = .ok l.reverse ∧
      (l.map Prod.fst).Pairwise (· < ·) ∧
      ∀ key value, (key,value) ∈ l ↔
        m key = some value ∧ start.getD [] ≤ key ∧ ∀ e ∈ stop, key < e := by
  intro s m
  refine ⟨fun key => ?_,fun start stop hstart hstop => ?_⟩
  · have hget : s.getAtVersion store key version = m key := getAtVersion_run hnames hstore key
    exact ⟨hget,congrArg Option.isSome hget⟩
  · obtain ⟨last,hbounds,hrange⟩ := iterateWithPrefix_store store start stop
    obtain ⟨hforward,hreverse⟩ := iterate_eq s version hstart hstop hbounds
    exact ⟨_,hforward,hreverse,sorted_pairsIn s hrange,mem_pairsIn hnames hstore hrange⟩

/-- A version zero that is hidden, a deletion and a store next to the one that is read. -/
def mixedCalls : List Call := [
  .importEntries 0 [⟨[97],[1],[9]⟩,⟨[97],[2],[9]⟩],
  .putAtVersion 1 [{ storeKey := [97], key := [2], value := [5] },
    { storeKey := [97], key := [3], value := [6] }, { storeKey := [97,98], key := [3] }],
  .feedChangeSet 2 [97] [{ key := [3], delete := true }]]

theorem reads_replayed_map_mixed :
    let s := run { skipVersionZero := true } mixedCalls
    s.getAtVersion [97] [3] (some 1) = mapAt mixedCalls true [97] (some 1) [3] ∧
      ∃ l, s.iterate [97] none (some [3]) (some 1) true = .ok (List.reverse l) ∧
        (([1],[9]) ∈ l ↔ mapAt mixedCalls true [97] (some 1) [1] = some [9] ∧
          ([] : Bytes) ≤ [1] ∧ ∀ e ∈ some ([3] : Bytes), [1] < e) := by
  obtain ⟨hget,hiterate⟩ := reads_replayed_map mixedCalls true [97] (some 1) (by decide) (by decide)
  obtain ⟨l,-,hreverse,-,hmem⟩ := hiterate none (some [3]) (by decide) (by decide)
  exact ⟨(hget [3]).1,l,hreverse,hmem [1] [9]⟩

/-- A version below zero reads as one after all others. -/
theorem getAtVersion_negative :
    (run {} [.putAtVersion 1 [{ storeKey := [97], key := [1], value := [7] }]]).getAtVersion
      [97] [1] (some (-1)) = some [7] ∧ (-1 : Int64) < 1 := by
  decide +kernel

end VersionStore

end Memiavl
