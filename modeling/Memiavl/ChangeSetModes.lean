import Memiavl.ChangeSetFile

/-! Parsing and skipping a change set on arbitrary bytes. The parser counts for a pair the size that
the writer would use, not the bytes that it reads. -/
namespace Memiavl

open Bytes Fallible List

/-- The pairs fill the size field, with the lengths in any form. -/
def Fills (bs : Bytes) : Prop := ∃ header raws pairs rest,
  header.length = 16 ∧ bs = header ++ List.flatten raws ++ rest ∧ List.Forall₂ PairForm raws pairs ∧
    headerSize header = raws.flatten.length

/-- A successful parse takes as many bytes as the header says, skipping ends at the same byte, and
pairs that do not fill the size field are an error. -/
structure ModesAgree (bs : Bytes) : Prop where
  skip : ∀ version n changeSet rest, readChangeSet true bs = .ok (version,n,changeSet,rest) →
    n = 16+headerSize (bs.take 16) ∧ (bs.length : ℤ) = n+rest.length ∧
      readChangeSet false bs = .ok (version,n,[],rest)
  fill : ¬Fills bs → ∃ err, readChangeSet true bs = .error err ∧ err ≠ .read .panic

def ShortForm (raw : Bytes) (pair : KVPair) : Prop :=
  PairForm raw pair ∧ raw.tail = (pairBytes pair).tail

theorem PairForm.size_le {raw : Bytes} {pair : KVPair} (h : PairForm raw pair) :
    encodedSizeOfKVPair pair ≤ raw.length := by
  obtain ⟨deletion,keyField,valueField,rfl,-,hkey,hvalue⟩ := h
  have hkey := hkey.length_le
  rw [length_append] at hkey
  rw [encodedSizeOfKVPair,length_cons,length_append]
  split_ifs at hvalue ⊢ with hdelete
  · simp only [uvarintSize_eq]
    omega
  · have hvalue := hvalue.length_le
    rw [length_append] at hvalue
    simp only [uvarintSize_eq]
    omega

/-- A pair has the size that is counted for it only if its lengths are in their shortest form. -/
theorem PairForm.short_iff {raw : Bytes} {pair : KVPair} (h : PairForm raw pair) :
    raw.length ≤ encodedSizeOfKVPair pair ↔ raw.tail = (pairBytes pair).tail := by
  constructor
  · intro hle
    rw [← length_pairBytes] at hle
    obtain ⟨deletion,keyField,valueField,rfl,-,hkey,hvalue⟩ := h
    have hkeyLen := hkey.length_le
    simp only [pairBytes,length_cons,length_append,tail_cons] at hle hkeyLen ⊢
    split_ifs at hvalue hle ⊢ with hdelete
    · rw [length_nil] at hle
      rw [hvalue.1,List.append_nil,List.append_nil]
      refine hkey.eq_put ?_
      rw [length_append]
      omega
    · have hvalueLen := hvalue.length_le
      simp only [length_append] at hvalueLen hle
      rw [hkey.eq_put (by rw [length_append]; omega),
        hvalue.eq_put (by rw [length_append]; omega)]
  · intro heq
    obtain ⟨deletion,keyField,valueField,rfl,-⟩ := h
    have := congrArg List.length heq
    rw [← length_pairBytes]
    simp only [tail_cons,pairBytes,length_cons] at this ⊢
    omega

section
variable {raws : List Bytes} {pairs : ChangeSet} (h : List.Forall₂ PairForm raws pairs)
include h

theorem payloadSize_le : payloadSize pairs ≤ raws.flatten.length := by
  induction h with
  | nil => simp [payloadSize]
  | cons hraw _ ih =>
    have := hraw.size_le
    rw [payloadSize_cons,flatten_cons,length_append]
    omega

theorem flatten_length_iff :
    raws.flatten.length = payloadSize pairs ↔ List.Forall₂ ShortForm raws pairs := by
  induction h with
  | nil => simp [payloadSize]
  | @cons raw pair raws pairs hraw hraws ih =>
    have hle := hraw.size_le
    have hrest := payloadSize_le hraws
    rw [forall₂_cons,← ih,ShortForm,← hraw.short_iff,payloadSize_cons,flatten_cons,
      length_append]
    constructor
    · intro h
      exact ⟨⟨hraw,by omega⟩,by omega⟩
    · rintro ⟨⟨-,h₁⟩,h₂⟩
      omega

end

/-- A pair that can be read. -/
def Readable (raw : Bytes) (pair : KVPair) : Prop :=
  PairForm raw pair ∧ pair.key.length ≤ maxAlloc ∧ pair.value.length ≤ maxAlloc

theorem Readable.read {raw : Bytes} {pair : KVPair} (h : Readable raw pair) (rest : Bytes) :
    readKVPair (raw ++ rest) = .ok (pair,rest) := readKVPair_eq_ok.mpr ⟨raw,rfl,h⟩

/-- The bytes are a header, pairs that can be read, and a rest. -/
structure Starts (bs header : Bytes) (raws : List Bytes) (pairs : ChangeSet) (rest : Bytes) :
    Prop where
  header_length : header.length = 16
  eq_append : bs = header ++ raws.flatten ++ rest
  readable : List.Forall₂ Readable raws pairs

theorem Starts.forms {bs header rest : Bytes} {raws : List Bytes} {pairs : ChangeSet}
    (h : Starts bs header raws pairs rest) : List.Forall₂ PairForm raws pairs :=
  h.readable.imp fun _ _ h => h.1

/-- A length that cannot be allocated. -/
def HugeLength (bs : Bytes) : Prop := ∃ n rest, readUvarint bs = .ok (n,rest) ∧ maxAlloc < n

/-- A pair with such a length for its key, or for its value. -/
def HugePair (bs : Bytes) : Prop := ∃ deletion fields, bs = deletion::fields ∧
  (HugeLength fields ∨ deletion ≠ 1 ∧ ∃ keyField key rest, fields = keyField ++ rest ∧
    Framed keyField key ∧ key.length ≤ maxAlloc ∧ HugeLength rest)

theorem readField_eq_panic {bs : Bytes} : readField bs = .error .panic ↔ HugeLength bs := by
  rw [readField,bind_eq_error,or_iff_right readUvarint_ne_panic,HugeLength]
  constructor
  · rintro ⟨⟨n,rest⟩,hread,h⟩
    dsimp only at h
    split_ifs at h with hmax
    · exact ⟨n,rest,hread,hmax⟩
    · exact absurd h readFull_ne_panic
  · rintro ⟨n,rest,hread,hmax⟩
    exact ⟨_,hread,if_pos hmax⟩

theorem readKVPair_eq_panic {bs : Bytes} : readKVPair bs = .error .panic ↔ HugePair bs := by
  cases bs with
  | nil => exact iff_of_false (fun h => nomatch h) (fun ⟨_,_,h,_⟩ => nomatch h)
  | cons deletion fields =>
    have hhuge : HugePair (deletion::fields) ↔ HugeLength fields ∨ deletion ≠ 1 ∧
        ∃ keyField key rest, fields = keyField ++ rest ∧ Framed keyField key ∧
          key.length ≤ maxAlloc ∧ HugeLength rest := by
      simp only [HugePair,cons.injEq]
      exact ⟨fun ⟨_,_,⟨rfl,rfl⟩,h⟩ => h,fun h => ⟨_,_,⟨rfl,rfl⟩,h⟩⟩
    rw [hhuge,readKVPair,bind_eq_error,readField_eq_panic]
    refine or_congr_right ⟨?_,?_⟩
    · rintro ⟨⟨key,rest⟩,hkey,h⟩
      dsimp only at h
      split_ifs at h with hdelete
      rw [bind_eq_error] at h
      obtain ⟨keyField,hfields,hframed,hmax⟩ := readField_eq_ok.mp hkey
      rcases h with h | ⟨_,_,h⟩
      · exact ⟨hdelete,keyField,key,rest,hfields,hframed,hmax,readField_eq_panic.mp h⟩
      · cases h
    · rintro ⟨hdelete,keyField,key,rest,hfields,hframed,hmax,h⟩
      refine ⟨(key,rest),readField_eq_ok.mpr ⟨keyField,hfields,hframed,hmax⟩,?_⟩
      dsimp only
      rw [if_neg hdelete,readField_eq_panic.mpr h]
      rfl

section
variable {size offset offset' : ℤ} {fuel : ℕ} {bs rest : Bytes} {pairs : ChangeSet}

/-- The pairs that a parse reads, and that it stops when enough is counted. -/
theorem readPairs_ok (hfuel : bs.length < fuel)
    (h : readPairs size fuel offset bs = .ok (offset',pairs,rest)) :
    ∃ raws, bs = List.flatten raws ++ rest ∧ List.Forall₂ Readable raws pairs ∧
      offset' = offset+payloadSize pairs := by
  induction fuel generalizing offset bs pairs with
  | zero => exact absurd hfuel (Nat.not_lt_zero _)
  | succ fuel ih =>
    rw [readPairs] at h
    split_ifs at h with hmore
    · rw [bind_eq_ok] at h
      obtain ⟨⟨pair,bs'⟩,hpair,h⟩ := h
      rw [bind_eq_ok] at h
      obtain ⟨⟨offset'',pairs',rest'⟩,hpairs,h⟩ := h
      obtain ⟨rfl,hrest⟩ := Prod.mk.inj (Except.ok.inj h)
      obtain ⟨rfl,rfl⟩ := Prod.mk.inj hrest
      obtain ⟨raw,rfl,hraw⟩ := readKVPair_eq_ok.mp hpair
      have hpos := length_pos_of_ne_nil hraw.1.ne_nil
      rw [length_append] at hfuel
      obtain ⟨raws,rfl,hraws,rfl⟩ := ih (by omega) hpairs
      refine ⟨raw::raws,by simp,.cons hraw hraws,?_⟩
      rw [payloadSize_cons]
      push_cast
      ring
    · obtain ⟨rfl,hrest⟩ := Prod.mk.inj (Except.ok.inj h)
      obtain ⟨rfl,rfl⟩ := Prod.mk.inj hrest
      exact ⟨[],rfl,.nil,by simp [payloadSize]⟩

/-- A parse panics if it gets to a length that cannot be allocated before enough is counted. -/
theorem readPairs_panic (hfuel : bs.length < fuel)
    (h : readPairs size fuel offset bs = .error .panic) :
    ∃ raws pairs rest, bs = List.flatten raws ++ rest ∧ List.Forall₂ Readable raws pairs ∧
      offset+payloadSize pairs < size ∧ HugePair rest := by
  induction fuel generalizing offset bs with
  | zero => exact absurd hfuel (Nat.not_lt_zero _)
  | succ fuel ih =>
    rw [readPairs] at h
    split_ifs at h with hmore
    rw [bind_eq_error] at h
    rcases h with h | ⟨⟨pair,bs'⟩,hpair,h⟩
    · exact ⟨[],[],bs,rfl,.nil,by simpa [payloadSize] using hmore,readKVPair_eq_panic.mp h⟩
    · rw [bind_eq_error] at h
      rcases h with h | ⟨_,_,h⟩
      · obtain ⟨raw,rfl,hraw⟩ := readKVPair_eq_ok.mp hpair
        have hpos := length_pos_of_ne_nil hraw.1.ne_nil
        rw [length_append] at hfuel
        obtain ⟨raws,pairs,rest,rfl,hraws,hlt,hhuge⟩ := ih (by omega) h
        refine ⟨raw::raws,pair::pairs,rest,by simp,.cons hraw hraws,?_,hhuge⟩
        rwa [payloadSize_cons,Nat.cast_add,← Int.add_assoc]
      · cases h

theorem length_le_flatten {raws : List Bytes} (h : List.Forall₂ PairForm raws pairs) :
    pairs.length ≤ raws.flatten.length := (length_le_payloadSize pairs).trans (payloadSize_le h)

end

section
variable {bs header rest : Bytes} {raws : List Bytes} {pairs : ChangeSet}

theorem Starts.readFull (h : Starts bs header raws pairs rest) :
    Bytes.readFull 16 bs = .ok (header,raws.flatten ++ rest) := by
  have := readFull_append header (raws.flatten ++ rest)
  rwa [h.header_length,← append_assoc,← h.eq_append] at this

/-- What is left for the loop after these pairs. -/
theorem Starts.readPairs (h : Starts bs header raws pairs rest)
    (hle : (payloadSize pairs : ℤ) ≤ headerSize header) : ∃ fuel,
      Memiavl.readPairs (headerSize header) ((raws.flatten ++ rest).length+1) 0
        (raws.flatten ++ rest) =
      (Memiavl.readPairs (headerSize header) (fuel+1) (payloadSize pairs) rest).map
        fun (offset,more,bs) => (offset,pairs ++ more,bs) := by
  have hlen := length_le_flatten h.forms
  obtain ⟨fuel,hfuel⟩ : ∃ k, (raws.flatten ++ rest).length+1 = pairs.length+(k+1) :=
    ⟨(raws.flatten ++ rest).length-pairs.length,by rw [length_append]; omega⟩
  have hread := readPairs_append (h.readable.imp fun _ _ h => h.read)
    (show 0+(payloadSize pairs : ℤ) ≤ headerSize header by omega) (fuel+1) rest
  rw [Int.zero_add] at hread
  exact ⟨fuel,hfuel ▸ hread⟩

/-- The inputs that are parsed. -/
theorem readChangeSet_eq_ok {version : Int64} {n : ℤ} :
    readChangeSet true bs = .ok (version,n,pairs,rest) ↔ ∃ header raws,
      Starts bs header raws pairs rest ∧ headerSize header = payloadSize pairs ∧
      version = headerVersion header ∧ n = payloadSize pairs+16 := by
  constructor
  · intro h
    rw [readChangeSet,Bytes.readFull] at h
    by_cases hheader : 16 ≤ bs.length
    · have htake : (bs.take 16).length = 16 := by
        rw [length_take]
        omega
      rw [if_pos hheader] at h
      simp only [if_true] at h
      split_ifs at h with hzero
      · simp only [Except.ok.injEq,Prod.mk.injEq] at h
        obtain ⟨rfl,rfl,rfl,rfl⟩ := h
        exact ⟨bs.take 16,[],⟨htake,by simp,.nil⟩,by simpa [payloadSize] using hzero,rfl,
          by simp [payloadSize]⟩
      · cases hpairs : Memiavl.readPairs (headerSize (bs.take 16)) ((bs.drop 16).length+1) 0
            (bs.drop 16) with
        | error err =>
          rw [hpairs] at h
          cases h
        | ok r =>
          obtain ⟨offset,pairs,bs'⟩ := r
          rw [hpairs] at h
          simp only [ite_error_eq_ok,not_not,Except.ok.injEq,Prod.mk.injEq] at h
          obtain ⟨hoffset,rfl,rfl,rfl,rfl⟩ := h
          obtain ⟨raws,hbs,hraws,hsum⟩ := readPairs_ok (Nat.lt_succ_self _) hpairs
          rw [Int.zero_add] at hsum
          refine ⟨bs.take 16,raws,⟨htake,?_,hraws⟩,by omega,rfl,by omega⟩
          rw [append_assoc,← hbs,take_append_drop]
    · rw [if_neg hheader] at h
      cases h
  · rintro ⟨header,raws,hstarts,hsize,rfl,rfl⟩
    rw [readChangeSet,hstarts.readFull]
    obtain ⟨fuel,hpairs⟩ := hstarts.readPairs hsize.ge
    have hdone : Memiavl.readPairs (payloadSize pairs) (fuel+1) (payloadSize pairs) rest =
        .ok ((payloadSize pairs : ℤ),[],rest) := by
      rw [Memiavl.readPairs,if_neg (lt_irrefl _)]
    rw [hsize,hdone] at hpairs
    simp only [hsize,if_true,hpairs]
    by_cases hzero : (payloadSize pairs : ℤ) = 0
    · have hlen := length_le_payloadSize pairs
      obtain rfl : pairs = [] := length_eq_zero_iff.mp (by omega)
      cases hstarts.readable
      simp [payloadSize]
    · rw [if_neg hzero]
      simp [Except.map]

/-- The inputs on which the parser panics. -/
theorem readChangeSet_eq_panic : readChangeSet true bs = .error (.read .panic) ↔
    ∃ header raws pairs rest, Starts bs header raws pairs rest ∧
      payloadSize pairs < headerSize header ∧ HugePair rest := by
  constructor
  · intro h
    cases hfull : Bytes.readFull 16 bs with
    | error err =>
      rw [readChangeSet,hfull] at h
      obtain rfl : err = .panic := FileError.read.inj (Except.error.inj h)
      exact absurd hfull readFull_ne_panic
    | ok r =>
      obtain ⟨header,tail⟩ := r
      rw [readChangeSet,hfull] at h
      simp only [if_true] at h
      rw [Bytes.readFull,ite_ok_error] at hfull
      obtain ⟨hlen,hbs⟩ := hfull
      obtain ⟨rfl,rfl⟩ := Prod.mk.inj hbs
      split_ifs at h with hzero
      cases hpairs : Memiavl.readPairs (headerSize (bs.take 16)) ((bs.drop 16).length+1) 0
          (bs.drop 16) with
      | error err =>
        rw [hpairs] at h
        obtain rfl : err = .panic := FileError.read.inj (Except.error.inj h)
        obtain ⟨raws,pairs,rest,heq,hraws,hlt,hhuge⟩ := readPairs_panic (Nat.lt_succ_self _) hpairs
        refine ⟨bs.take 16,raws,pairs,rest,⟨by rw [length_take]; omega,?_,hraws⟩,by omega,hhuge⟩
        rw [append_assoc,← heq,take_append_drop]
      | ok r =>
        rw [hpairs] at h
        dsimp only at h
        split_ifs at h
        cases h
  · rintro ⟨header,raws,pairs,rest,hstarts,hlt,hhuge⟩
    obtain ⟨fuel,hpairs⟩ := hstarts.readPairs hlt.le
    have hpanic : Memiavl.readPairs (headerSize header) (fuel+1) (payloadSize pairs) rest =
        .error .panic := by
      rw [Memiavl.readPairs,if_pos hlt,readKVPair_eq_panic.mpr hhuge]
      rfl
    rw [hpanic] at hpairs
    rw [readChangeSet,hstarts.readFull]
    simp only [if_true,if_neg (show headerSize header ≠ 0 by omega),hpairs]
    rfl

end

theorem readChangeSet_skip {header payload : Bytes} (hlen : header.length = 16)
    (hsize : headerSize header = payload.length) (rest : Bytes) :
    readChangeSet false (header ++ payload ++ rest) =
      .ok (headerVersion header,(payload.length : ℤ)+16,[],rest) := by
  have hread := readFull_append header (payload ++ rest)
  rw [hlen] at hread
  rw [append_assoc,readChangeSet,hread]
  simp only [hsize,Bool.false_eq_true,if_false]
  by_cases hzero : (payload.length : ℤ) = 0
  · obtain rfl := length_eq_zero_iff.mp (Int.natCast_eq_zero.mp hzero)
    rfl
  · rw [if_neg hzero]
    have hskip : discard payload.length (payload ++ rest) = .ok rest := by
      rw [discard,if_neg (by simp),Int.toNat_natCast,drop_left]
    simp [hskip]

/-- The modes agree exactly if pairs that are counted as large as the size field says have their
lengths in the shortest form, and no length that cannot be allocated comes before that, unless the
pairs fill the size field. -/
theorem modesAgree_iff (bs : Bytes) : ModesAgree bs ↔
    ∀ header raws pairs rest, Starts bs header raws pairs rest →
      (headerSize header = payloadSize pairs → List.Forall₂ ShortForm raws pairs) ∧
      (payloadSize pairs < headerSize header → HugePair rest → Fills bs) := by
  constructor
  · intro h header raws pairs rest hstarts
    refine ⟨fun hsize => ?_,fun hlt hhuge => ?_⟩
    · have hread := readChangeSet_eq_ok.mpr ⟨header,raws,hstarts,hsize,rfl,rfl⟩
      obtain ⟨-,hconsumed,-⟩ := h.skip _ _ _ _ hread
      refine (flatten_length_iff hstarts.forms).mp ?_
      rw [hstarts.eq_append] at hconsumed
      simp only [length_append,hstarts.header_length] at hconsumed
      push_cast at hconsumed
      omega
    · by_contra hfills
      obtain ⟨err,herr,hne⟩ := h.fill hfills
      rw [readChangeSet_eq_panic.mpr ⟨header,raws,pairs,rest,hstarts,hlt,hhuge⟩] at herr
      exact hne (Except.error.inj herr).symm
  · intro h
    refine ⟨fun version n changeSet rest hread => ?_,fun hfills => ?_⟩
    · obtain ⟨header,raws,hstarts,hsize,rfl,rfl⟩ := readChangeSet_eq_ok.mp hread
      have hsum := (flatten_length_iff hstarts.forms).mpr ((h _ _ _ _ hstarts).1 hsize)
      have hskip := readChangeSet_skip hstarts.header_length (hsize.trans (by rw [hsum])) rest
      rw [← hstarts.eq_append,hsum] at hskip
      refine ⟨?_,?_,hskip⟩
      · rw [hstarts.eq_append,append_assoc,take_left' hstarts.header_length]
        omega
      · rw [hstarts.eq_append]
        simp only [length_append,hstarts.header_length]
        push_cast
        omega
    · cases hread : readChangeSet true bs with
      | error err =>
        refine ⟨err,rfl,?_⟩
        rintro rfl
        obtain ⟨header,raws,pairs,rest,hstarts,hlt,hhuge⟩ := readChangeSet_eq_panic.mp hread
        exact hfills ((h _ _ _ _ hstarts).2 hlt hhuge)
      | ok r =>
        obtain ⟨version,n,changeSet,rest⟩ := r
        obtain ⟨header,raws,hstarts,hsize,-,-⟩ := readChangeSet_eq_ok.mp hread
        have hsum := (flatten_length_iff hstarts.forms).mpr ((h _ _ _ _ hstarts).1 hsize)
        exact absurd ⟨header,raws,changeSet,rest,hstarts.header_length,hstarts.eq_append,
          hstarts.forms,hsize.trans (by rw [hsum])⟩ hfills

/-- A key of one byte whose length takes two bytes: the size field says 3, the parse takes 4. -/
theorem modes_differ_on_long_form :
    readChangeSet true [1,0,0,0,0,0,0,0,3,0,0,0,0,0,0,0,1,129,0,7] = .ok (1,19,[⟨true,[7],[]⟩],[]) ∧
      readChangeSet false [1,0,0,0,0,0,0,0,3,0,0,0,0,0,0,0,1,129,0,7] = .ok (1,19,[],[7]) ∧
      ¬ModesAgree [1,0,0,0,0,0,0,0,3,0,0,0,0,0,0,0,1,129,0,7] := by
  have hparse : readChangeSet true [1,0,0,0,0,0,0,0,3,0,0,0,0,0,0,0,1,129,0,7] =
      .ok (1,19,[⟨true,[7],[]⟩],[]) := by decide +kernel
  have hskip : readChangeSet false [1,0,0,0,0,0,0,0,3,0,0,0,0,0,0,0,1,129,0,7] =
      .ok (1,19,[],[7]) := by decide +kernel
  refine ⟨hparse,hskip,fun h => ?_⟩
  have := (h.skip _ _ _ _ hparse).2.2
  rw [hskip] at this
  cases this

end Memiavl
