import Memiavl.Library.Bytes

/-! Reading unsigned variable-length integers and byte strings of a given length. A reader is the
bytes that are left. -/

namespace Bytes

open List

/-- How a read fails. -/
inductive ReadError
  /-- Nothing is left. -/
  | eof
  | unexpectedEof
  /-- A number needs more than 64 bits. -/
  | overflow
  /-- An index is out of range. -/
  | panic
  deriving DecidableEq

/-- The loop of `ReadUvarint`, with the number of bytes that may still come, what was read and the
shift for the next byte. -/
def readUvarintAux : ℕ → ℕ → ℕ → Bytes → Except ReadError (ℕ × Bytes)
  | 0,_,_,_ => .error .overflow
  | _+1,_,s,[] => .error (if s = 0 then .eof else .unexpectedEof)
  | left+1,x,s,b::bs =>
    if b < 128 then
      if left = 0 ∧ 1 < b then .error .overflow else .ok (x+b.toNat*2^s,bs)
    else readUvarintAux left (x+(b.toNat-128)*2^s) (s+7) bs

def readUvarint (bs : Bytes) : Except ReadError (ℕ × Bytes) := readUvarintAux 10 0 0 bs

def readFull (n : ℕ) (bs : Bytes) : Except ReadError (Bytes × Bytes) :=
  if n ≤ bs.length then .ok (bs.take n,bs.drop n)
  else .error (if bs = [] then .eof else .unexpectedEof)

theorem readFull_append (xs rest : Bytes) : readFull xs.length (xs ++ rest) = .ok (xs,rest) := by
  simp [readFull]

variable {fuel left n v : ℕ} {bs rest : Bytes}

/-- With `left+1` bytes to come a number of `7*left+1` bits can be read. -/
theorem readUvarintAux_put (hfuel : n < fuel) (hn : n < 2^(7*left+1)) (x s : ℕ) (rest : Bytes) :
    readUvarintAux (left+1) x s (putUvarintAux fuel n ++ rest) = .ok (x+n*2^s,rest) := by
  induction fuel generalizing left n x s with
  | zero => exact absurd hfuel (Nat.not_lt_zero n)
  | succ fuel ih =>
    rw [putUvarintAux]
    split
    · rename_i hsmall
      have hb : (UInt8.ofNat n).toNat = n := by
        rw [UInt8.toNat_ofNat']
        omega
      have hlt : UInt8.ofNat n < 128 := by
        rw [UInt8.lt_iff_toNat_lt,hb]
        exact hsmall
      have hlast : ¬(left = 0 ∧ 1 < UInt8.ofNat n) := by
        rintro ⟨rfl,h⟩
        rw [UInt8.lt_iff_toNat_lt,hb] at h
        simp at hn h
        omega
      rw [singleton_append,readUvarintAux,if_pos hlt,if_neg hlast,hb]
    · rename_i hlarge
      obtain _ | left := left
      · simp at hn
        omega
      have hb : (UInt8.ofNat (n % 128+128)).toNat = n % 128+128 := by
        rw [UInt8.toNat_ofNat']
        omega
      have hge : ¬UInt8.ofNat (n % 128+128) < 128 := by
        rw [UInt8.lt_iff_toNat_lt,hb]
        simp
      have hdiv : n/128 < 2^(7*left+1) := by
        rw [Nat.div_lt_iff_lt_mul (by norm_num)]
        rw [show 7*(left+1)+1 = 7*left+1+7 by ring,pow_add] at hn
        simpa using hn
      rw [cons_append,readUvarintAux,if_neg hge,ih (by omega) hdiv,hb,Nat.add_sub_cancel,
        pow_add]
      congr 2
      have hmod := Nat.div_add_mod n 128
      nth_rewrite 3 [← hmod]
      ring

theorem readUvarint_put (hn : n < 2^64) (rest : Bytes) :
    readUvarint (putUvarint n ++ rest) = .ok (n,rest) := by
  rw [readUvarint,putUvarint,readUvarintAux_put (Nat.lt_succ_self n) hn]
  simp

theorem readUvarint_nil : readUvarint [] = .error .eof := rfl

theorem readUvarintAux_ne_panic (x s : ℕ) : readUvarintAux left x s bs ≠ .error .panic := by
  induction left generalizing x s bs with
  | zero => exact fun h => nomatch h
  | succ left ih =>
    cases bs with
    | nil =>
      rw [readUvarintAux]
      split <;> exact fun h => nomatch h
    | cons b bs =>
      rw [readUvarintAux]
      split_ifs
      · exact fun h => nomatch h
      · exact fun h => nomatch h
      · exact ih _ _

theorem readUvarint_ne_panic : readUvarint bs ≠ .error .panic := readUvarintAux_ne_panic 0 0

theorem readFull_ne_panic : readFull n bs ≠ .error .panic := by
  rw [readFull]
  split_ifs <;> exact fun h => nomatch h

/-- The bytes that were read, and that they are read the same in front of other bytes. The number
fits into seven bits of each byte. -/
theorem readUvarintAux_split {x s : ℕ} (h : readUvarintAux left x s bs = .ok (v,rest)) :
    ∃ header, bs = header ++ rest ∧
      header ≠ [] ∧ (∀ rest', readUvarintAux left x s (header ++ rest') = .ok (v,rest')) ∧
      ∃ n, v = x+n*2^s ∧ n < 2^(7*header.length) ∧ (1 ≤ left → n < 2^(7*(left-1)+1)) := by
  induction left generalizing x s bs with
  | zero => simp [readUvarintAux] at h
  | succ left ih =>
    cases bs with
    | nil => simp [readUvarintAux] at h
    | cons b bs =>
      have hb := b.toNat_lt
      rw [readUvarintAux] at h
      split_ifs at h with hlast hover
      · -- The last byte of the number.
        obtain ⟨rfl,rfl⟩ := Prod.mk.inj (Except.ok.inj h)
        have hlt : b.toNat < 128 := hlast
        refine ⟨[b],rfl,by simp,fun rest' => ?_,b.toNat,rfl,by simpa using hlt,fun _ => ?_⟩
        · rw [singleton_append,readUvarintAux,if_pos hlast,if_neg hover]
        · obtain _ | left := left
          · have hsmall : ¬1 < b.toNat := fun h => hover ⟨rfl,h⟩
            simp
            omega
          · calc b.toNat < 2^7 := hlt
              _ ≤ 2^(7*(left+1+1-1)+1) := Nat.pow_le_pow_right (by norm_num) (by omega)
      · obtain ⟨header,rfl,-,hread,n,rfl,hn,hleft⟩ := ih h
        have hge : 128 ≤ b.toNat := not_lt.mp hlast
        refine ⟨b::header,rfl,by simp,fun rest' => ?_,b.toNat-128+n*2^7,?_,?_,fun _ => ?_⟩
        · rw [cons_append,readUvarintAux,if_neg hlast]
          exact hread rest'
        · rw [Nat.pow_add]
          ring
        · rw [length_cons,show 7*(header.length+1) = 7*header.length+7 by ring,pow_add]
          omega
        · obtain _ | left := left
          · simp [readUvarintAux] at h
          · have hn := hleft (by omega)
            rw [show 7*(left+1+1-1)+1 = 7*(left+1-1)+1+7 by omega,pow_add]
            omega

/-- A number in the bytes in front of a reader: its bytes, which are read alike in front of
anything else. -/
theorem readUvarint_split (h : readUvarint bs = .ok (v,rest)) :
    ∃ header, bs = header ++ rest ∧ header ≠ [] ∧
      (∀ rest', readUvarint (header ++ rest') = .ok (v,rest')) ∧
      v < 2^(7*header.length) ∧ v < 2^64 := by
  obtain ⟨header,hbs,hne,hread,n,hv,hn,hleft⟩ := readUvarintAux_split h
  have hleft := hleft (by norm_num)
  simp only [Nat.pow_zero,Nat.mul_one,Nat.zero_add] at hv
  subst hv
  exact ⟨header,hbs,hne,hread,hn,hleft⟩

theorem length_putUvarintAux_le_iff {k : ℕ} (hfuel : n < fuel) :
    (putUvarintAux fuel n).length ≤ k+1 ↔ n < 2^(7*(k+1)) := by
  induction fuel generalizing n k with
  | zero => exact absurd hfuel (Nat.not_lt_zero n)
  | succ fuel ih =>
    rw [putUvarintAux]
    have hpow : 2^(7*(k+1)) = 2^(7*k)*128 := by
      rw [Nat.mul_succ,pow_add]
      rfl
    have hpos : 1 ≤ 2^(7*k) := Nat.one_le_two_pow
    split
    · rename_i hsmall
      simp only [length_singleton]
      exact ⟨fun _ => by omega,fun _ => by omega⟩
    · rename_i hlarge
      rw [length_cons,Nat.add_le_add_iff_right]
      obtain _ | k := k
      · have hne : (putUvarintAux fuel (n/128)).length ≠ 0 := by
          obtain ⟨m,rfl⟩ : ∃ m, fuel = m+1 := ⟨fuel-1,by omega⟩
          rw [putUvarintAux]
          split <;> simp
        simp
        exact ⟨fun h => absurd (by simp [h]) hne,fun h => absurd h (by omega)⟩
      · rw [ih (by omega),hpow,Nat.div_lt_iff_lt_mul (by norm_num)]

theorem length_putUvarint_le_iff (n k : ℕ) : (putUvarint n).length ≤ k+1 ↔ n < 2^(7*(k+1)) :=
  length_putUvarintAux_le_iff (Nat.lt_succ_self n)

theorem length_putUvarint_pos (n : ℕ) : 0 < (putUvarint n).length := by
  rw [putUvarint,putUvarintAux]
  split <;> simp

/-- No other bytes of a number are shorter than those that are written for it. -/
theorem length_putUvarint_le {k : ℕ} (hk : 0 < k) (hn : n < 2^(7*k)) :
    (putUvarint n).length ≤ k := by
  obtain ⟨k,rfl⟩ : ∃ j, k = j+1 := ⟨k-1,by omega⟩
  exact (length_putUvarint_le_iff n k).mpr hn

theorem putUvarintAux_eq {fuel' : ℕ} (h : n < fuel) (h' : n < fuel') :
    putUvarintAux fuel n = putUvarintAux fuel' n := by
  induction fuel generalizing fuel' n with
  | zero => exact absurd h (Nat.not_lt_zero n)
  | succ fuel ih =>
    obtain ⟨fuel',rfl⟩ : ∃ f, fuel' = f+1 := ⟨fuel'-1,by omega⟩
    rw [putUvarintAux,putUvarintAux]
    split
    · rfl
    · congr 1
      exact ih (by omega) (by omega)

theorem putUvarint_small (h : n < 128) : putUvarint n = [UInt8.ofNat n] := by
  rw [putUvarint,putUvarintAux,if_pos h]

theorem putUvarint_large (h : 128 ≤ n) :
    putUvarint n = UInt8.ofNat (n % 128+128)::putUvarint (n/128) := by
  rw [putUvarint,putUvarintAux,if_neg (by omega),putUvarint]
  congr 1
  exact putUvarintAux_eq (by omega) (by omega)

/-- Bytes of a number that are no longer than those that are written for it are the same. -/
theorem readUvarintAux_short {x s : ℕ} (h : readUvarintAux left x s bs = .ok (v,[])) :
    ∃ n, v = x+n*2^s ∧
      (bs.length ≤ (putUvarint n).length → bs = putUvarint n) := by
  induction left generalizing x s bs with
  | zero => simp [readUvarintAux] at h
  | succ left ih =>
    cases bs with
    | nil => simp [readUvarintAux] at h
    | cons b bs =>
      rw [readUvarintAux] at h
      split_ifs at h with hlast hover
      · obtain ⟨rfl,rfl⟩ := Prod.mk.inj (Except.ok.inj h)
        refine ⟨b.toNat,rfl,fun _ => ?_⟩
        have hlt : b.toNat < 128 := hlast
        rw [putUvarint_small hlt,UInt8.ofNat_toNat]
      · obtain ⟨m,rfl,hm⟩ := ih h
        have hge : 128 ≤ b.toNat := not_lt.mp hlast
        have hb := b.toNat_lt
        refine ⟨b.toNat-128+128*m,by rw [pow_add]; ring,fun hlen => ?_⟩
        have hbs : bs ≠ [] := by
          rintro rfl
          obtain _ | left := left <;> simp [readUvarintAux] at h
        have hpos := length_pos_of_ne_nil hbs
        rw [length_cons] at hlen
        have hlarge : 128 ≤ b.toNat-128+128*m := by
          by_contra hsmall
          rw [putUvarint_small (by omega),length_singleton] at hlen
          omega
        rw [putUvarint_large hlarge] at hlen ⊢
        have hdiv : (b.toNat-128+128*m)/128 = m := by omega
        have hmod : (b.toNat-128+128*m) % 128+128 = b.toNat := by omega
        rw [hdiv,length_cons] at hlen
        rw [hdiv,hmod,UInt8.ofNat_toNat,← hm (by omega)]

/-- A length, in any form, and the bytes that it counts. -/
def Framed (field body : Bytes) : Prop := ∃ header,
  field = header ++ body ∧ readUvarint header = .ok (body.length,[])

namespace Framed

variable {field body : Bytes}

theorem read (h : Framed field body) (rest : Bytes) :
    readUvarint (field ++ rest) = .ok (body.length,body ++ rest) := by
  obtain ⟨header,rfl,hread⟩ := h
  obtain ⟨header',heq,-,hall,-⟩ := readUvarint_split hread
  rw [List.append_nil] at heq
  subst heq
  rw [append_assoc,hall]

theorem put (h : body.length < 2^64) : Framed (putUvarint body.length ++ body) body := by
  refine ⟨_,rfl,?_⟩
  have := readUvarint_put h []
  rwa [List.append_nil] at this

theorem ne_nil (h : Framed field body) : field ≠ [] := by
  rintro rfl
  have := h.read []
  rw [List.append_nil,readUvarint_nil] at this
  cases this

theorem length_le (h : Framed field body) :
    (putUvarint body.length ++ body).length ≤ field.length := by
  obtain ⟨header,rfl,hread⟩ := h
  obtain ⟨header',heq,hne,-,hsmall,-⟩ := readUvarint_split hread
  rw [List.append_nil] at heq
  subst heq
  have := length_putUvarint_le (length_pos_of_ne_nil hne) hsmall
  simpa using this

/-- No other form of the length is as short as the one that is written. -/
theorem eq_put (h : Framed field body)
    (hlen : field.length ≤ (putUvarint body.length ++ body).length) :
    field = putUvarint body.length ++ body := by
  obtain ⟨header,rfl,hread⟩ := h
  obtain ⟨n,hn,hshort⟩ := readUvarintAux_short hread
  simp only [Nat.pow_zero,Nat.mul_one,Nat.zero_add] at hn
  rw [hn,hshort]
  rw [length_append,length_append,hn] at hlen
  omega

end Framed

theorem framed_of_read (h : readUvarint bs = .ok (n,rest)) (hlen : n ≤ rest.length) :
    ∃ field, bs = field ++ rest.drop n ∧ Framed field (rest.take n) := by
  obtain ⟨header,rfl,-,hall,-⟩ := readUvarint_split h
  refine ⟨header ++ rest.take n,by simp,header,rfl,?_⟩
  have := hall []
  rw [List.append_nil] at this
  rw [this,length_take,Nat.min_eq_left hlen]

end Bytes
