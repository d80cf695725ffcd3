import Memiavl.Library.Bytes

/-! The SHA-256 hash function on byte strings. -/

/-- A digest is 32 bytes long. -/
abbrev Digest := {d : Bytes // d.length = 32}

namespace Sha256

/-- Round constants: fractional parts of the cube roots of the first 64 primes. -/
def roundConstants : List UInt32 :=
  [0x428a2f98,0x71374491,0xb5c0fbcf,0xe9b5dba5,0x3956c25b,0x59f111f1,0x923f82a4,0xab1c5ed5,
   0xd807aa98,0x12835b01,0x243185be,0x550c7dc3,0x72be5d74,0x80deb1fe,0x9bdc06a7,0xc19bf174,
   0xe49b69c1,0xefbe4786,0x0fc19dc6,0x240ca1cc,0x2de92c6f,0x4a7484aa,0x5cb0a9dc,0x76f988da,
   0x983e5152,0xa831c66d,0xb00327c8,0xbf597fc7,0xc6e00bf3,0xd5a79147,0x06ca6351,0x14292967,
   0x27b70a85,0x2e1b2138,0x4d2c6dfc,0x53380d13,0x650a7354,0x766a0abb,0x81c2c92e,0x92722c85,
   0xa2bfe8a1,0xa81a664b,0xc24b8b70,0xc76c51a3,0xd192e819,0xd6990624,0xf40e3585,0x106aa070,
   0x19a4c116,0x1e376c08,0x2748774c,0x34b0bcb5,0x391c0cb3,0x4ed8aa4a,0x5b9cca4f,0x682e6ff3,
   0x748f82ee,0x78a5636f,0x84c87814,0x8cc70208,0x90befffa,0xa4506ceb,0xbef9a3f7,0xc67178f2]

structure State where
  a : UInt32
  b : UInt32
  c : UInt32
  d : UInt32
  e : UInt32
  f : UInt32
  g : UInt32
  h : UInt32
  deriving DecidableEq

def initial : State :=
  ⟨0x6a09e667,0xbb67ae85,0x3c6ef372,0xa54ff53a,0x510e527f,0x9b05688c,0x1f83d9ab,0x5be0cd19⟩

def rotr (x : UInt32) (n : UInt32) : UInt32 := (x >>> n) ||| (x <<< (32-n))

def word : Bytes → UInt32
  | [b₀,b₁,b₂,b₃] =>
    (b₀.toUInt32 <<< 24) ||| (b₁.toUInt32 <<< 16) ||| (b₂.toUInt32 <<< 8) ||| b₃.toUInt32
  | _ => 0

def words : ℕ → Bytes → List UInt32
  | 0, _ => []
  | n+1, bs => word (bs.take 4) :: words n (bs.drop 4)

/-- Extend the message schedule; the list holds the newest word first. -/
def extend : ℕ → List UInt32 → List UInt32
  | 0, ws => ws
  | n+1, ws =>
    let w₁₅ := ws.getD 14 0
    let w₂ := ws.getD 1 0
    let s₀ := rotr w₁₅ 7 ^^^ rotr w₁₅ 18 ^^^ (w₁₅ >>> 3)
    let s₁ := rotr w₂ 17 ^^^ rotr w₂ 19 ^^^ (w₂ >>> 10)
    extend n ((ws.getD 15 0 + s₀ + ws.getD 6 0 + s₁) :: ws)

def round (s : State) (k w : UInt32) : State :=
  let s₁ := rotr s.e 6 ^^^ rotr s.e 11 ^^^ rotr s.e 25
  let ch := (s.e &&& s.f) ^^^ (~~~ s.e &&& s.g)
  let t₁ := s.h + s₁ + ch + k + w
  let s₀ := rotr s.a 2 ^^^ rotr s.a 13 ^^^ rotr s.a 22
  let maj := (s.a &&& s.b) ^^^ (s.a &&& s.c) ^^^ (s.b &&& s.c)
  ⟨t₁ + (s₀ + maj),s.a,s.b,s.c,s.d + t₁,s.e,s.f,s.g⟩

def rounds : State → List UInt32 → List UInt32 → State
  | s, k :: ks, w :: ws => rounds (round s k w) ks ws
  | s, _, _ => s

def compress (s : State) (block : Bytes) : State :=
  let r := rounds s roundConstants (extend 48 (words 16 block).reverse).reverse
  ⟨s.a+r.a,s.b+r.b,s.c+r.c,s.d+r.d,s.e+r.e,s.f+r.f,s.g+r.g,s.h+r.h⟩

def blocks : ℕ → State → Bytes → State
  | 0, s, _ => s
  | n+1, s, bs => blocks n (compress s (bs.take 64)) (bs.drop 64)

/-- A one bit, zeros, and the length in bits, up to a multiple of 64 bytes. -/
def pad (bs : Bytes) : Bytes :=
  bs ++ [0x80] ++ List.replicate ((119 - bs.length % 64) % 64) 0 ++
    (Bytes.putLE 8 (8*bs.length)).reverse

def wordBytes (w : UInt32) : Bytes := (Bytes.putLE 4 w.toNat).reverse

def State.bytes (s : State) : Bytes :=
  wordBytes s.a ++ wordBytes s.b ++ wordBytes s.c ++ wordBytes s.d ++
    wordBytes s.e ++ wordBytes s.f ++ wordBytes s.g ++ wordBytes s.h

theorem State.length_bytes (s : State) : s.bytes.length = 32 := by
  simp [State.bytes,wordBytes]

end Sha256

def sha256 (bs : Bytes) : Digest :=
  let padded := Sha256.pad bs
  let s := Sha256.blocks (padded.length / 64) Sha256.initial padded
  ⟨s.bytes,s.length_bytes⟩

example : (sha256 [0x61,0x62,0x63]).val =
    [0xba,0x78,0x16,0xbf,0x8f,0x01,0xcf,0xea,0x41,0x41,0x40,0xde,0x5d,0xae,0x22,0x23,
     0xb0,0x03,0x61,0xa3,0x96,0x17,0x7a,0x9c,0xb4,0x10,0xff,0x61,0xf2,0x00,0x15,0xad] := by
  decide +kernel
