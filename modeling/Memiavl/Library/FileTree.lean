import Memiavl.Library.Bytes

/-! Clean absolute paths as lists of names, the lexical join of a path with a name that may have
separators in it, and a tree of files with the calls that create directories and files. Links and
permissions are left out. -/

namespace FileTree

/-- The names on the way from the root. -/
abbrev Path := List Bytes

/-- Goes on by one component: nothing and `.` stay, `..` goes up. -/
def enter (p : Path) (c : Bytes) : Path :=
  if c = [] ∨ c = [46] then p else if c = [46,46] then p.dropLast else p ++ [c]

/-- The clean path of `name` below `p`, where `/` separates components. -/
def join (p : Path) (name : Bytes) : Path := (name.splitOn 47).foldl enter p

inductive Entry
  | dir
  | file (data : Bytes)
  deriving DecidableEq

end FileTree

/-- What stands at each path. -/
abbrev FileTree := FileTree.Path → Option FileTree.Entry

namespace FileTree

/-- A name with a zero byte is refused. -/
def ValidName (c : Bytes) : Bool := !c.contains 0

variable {fs : FileTree} {p q : Path}

def put (fs : FileTree) (p : Path) (e : Entry) : FileTree := Function.update fs p (some e)

def mkdir (fs : FileTree) (p : Path) (c : Bytes) : FileTree × Option String :=
  if ValidName c then
    match fs (p ++ [c]) with
    | none => (fs.put (p ++ [c]) .dir,none)
    | some .dir => (fs,none)
    | some (.file _) => (fs,some "not a directory")
  else (fs,some "invalid argument")

/-- Makes the directories on the way from `p` on. -/
def mkdirFrom (fs : FileTree) (p : Path) : Path → FileTree × Option String
  | [] => (fs,none)
  | c::cs =>
    match fs.mkdir p c with
    | (fs,some err) => (fs,some err)
    | (fs,none) => fs.mkdirFrom (p ++ [c]) cs

def mkdirAll (fs : FileTree) (p : Path) : FileTree × Option String := fs.mkdirFrom [] p

/-- Creates or truncates a file and writes it, in a directory that is there. -/
def writeFile (fs : FileTree) (p : Path) (data : Bytes) : FileTree × Option String :=
  match fs p with
  | some .dir => (fs,some "is a directory")
  | _ => (fs.put p (.file data),none)

def writeFiles (fs : FileTree) : List (Path × Bytes) → FileTree × Option String
  | [] => (fs,none)
  | f::rest =>
    match fs.writeFile f.1 f.2 with
    | (fs,some err) => (fs,some err)
    | (fs,none) => fs.writeFiles rest

/-- Two trees that differ only at paths with `P`. -/
def SameUnless (P : Path → Prop) (fs fs' : FileTree) : Prop := ∀ p, ¬P p → fs' p = fs p

namespace SameUnless
variable {P : Path → Prop} {fs₁ fs₂ fs₃ : FileTree}

theorem refl (P : Path → Prop) (fs : FileTree) : SameUnless P fs fs := fun _ _ => rfl

theorem trans (h : SameUnless P fs₁ fs₂) (h' : SameUnless P fs₂ fs₃) : SameUnless P fs₁ fs₃ :=
  fun p hp => (h' p hp).trans (h p hp)

theorem put (fs : FileTree) (hp : P p) (e : Entry) : SameUnless P fs (fs.put p e) := by
  intro q hq
  exact Function.update_of_ne (fun h : q = p => hq (h ▸ hp)) _ fs

theorem writeFile (fs : FileTree) (hp : P p) (data : Bytes) :
    SameUnless P fs (fs.writeFile p data).1 := by
  unfold FileTree.writeFile
  split
  · exact refl P fs
  · exact put fs hp _

theorem writeFiles (fs : FileTree) {l : List (Path × Bytes)} (hl : ∀ f ∈ l, P f.1) :
    SameUnless P fs (fs.writeFiles l).1 := by
  induction l generalizing fs with
  | nil => exact refl P fs
  | cons f l ih =>
    have hfirst := writeFile fs (hl f (by simp)) f.2
    rw [FileTree.writeFiles]
    split <;> rename_i heq <;> rw [heq] at hfirst
    · exact hfirst
    · exact hfirst.trans (ih _ fun g hg => hl g (by simp [hg]))

theorem mkdir (fs : FileTree) {c : Bytes}
    (hp : ValidName c → fs (p ++ [c]) = some .dir ∨ P (p ++ [c])) :
    SameUnless P fs (fs.mkdir p c).1 := by
  unfold FileTree.mkdir
  split
  · rename_i hc
    split
    · rename_i hnone
      rcases hp hc with h | h
      · rw [hnone] at h
        cases h
      · exact put fs h _
    · exact refl P fs
    · exact refl P fs
  · exact refl P fs

end SameUnless

/-- All the names of the path are valid, and it and the ways to it are directories. -/
def HasDir (fs : FileTree) (p : Path) : Prop := ∀ q, q <+: p → fs q = some .dir

theorem HasDir.congr {P : Path → Prop} {fs fs' : FileTree} (h : fs.HasDir p)
    (hsame : SameUnless P fs fs') (hP : ∀ q, q <+: p → ¬P q) : fs'.HasDir p :=
  fun q hq => (hsame q (hP q hq)).trans (h q hq)

theorem mkdir_of_ne {c : Bytes} (h : q ≠ p ++ [c]) : (fs.mkdir p c).1 q = fs q := by
  unfold mkdir
  split
  · split
    · exact Function.update_of_ne h _ fs
    · rfl
    · rfl
  · rfl

theorem append_ne_of_ne_nil {c : Bytes} (hq : q ≠ []) : p ++ [c] ++ q ≠ p ++ [c] := by
  simpa using hq

/-- Making directories on a way touches only what is missing there, up to the first name that is
refused. -/
theorem sameUnless_mkdirFrom {P : Path → Prop} {cs : Path}
    (h : ∀ q, q <+: cs.takeWhile ValidName → q ≠ [] → fs (p ++ q) = some .dir ∨ P (p ++ q)) :
    SameUnless P fs (fs.mkdirFrom p cs).1 := by
  induction cs generalizing fs p with
  | nil => exact .refl P fs
  | cons c cs ih =>
    have hfirst : SameUnless P fs (fs.mkdir p c).1 := by
      refine .mkdir fs fun hc => h [c] ?_ (by simp)
      rw [List.takeWhile_cons,if_pos hc]
      exact List.prefix_append [c] _
    have hnext : ∀ q, q <+: cs.takeWhile ValidName → q ≠ [] → ValidName c →
        (fs.mkdir p c).1 (p ++ [c] ++ q) = some .dir ∨ P (p ++ [c] ++ q) := by
      intro q hq hne hc
      rw [mkdir_of_ne (append_ne_of_ne_nil hne),List.append_assoc]
      refine h (c::q) ?_ (by simp)
      rw [List.takeWhile_cons,if_pos hc]
      exact (List.prefix_cons_inj c).mpr hq
    rw [mkdirFrom]
    cases hc : ValidName c with
    | false =>
      have hfail : fs.mkdir p c = (fs,some "invalid argument") := by simp [mkdir,hc]
      rw [hfail]
      exact .refl P fs
    | true =>
      have hrest := ih fun q hq hne => hnext q hq hne hc
      split
      · rename_i heq
        rw [heq] at hfirst
        exact hfirst
      · rename_i heq
        rw [heq] at hfirst hrest
        exact hfirst.trans hrest

def Extends (fs fs' : FileTree) : Prop := ∀ p, fs p ≠ none → fs' p ≠ none

theorem Extends.trans {fs₁ fs₂ fs₃ : FileTree} (h : Extends fs₁ fs₂) (h' : Extends fs₂ fs₃) :
    Extends fs₁ fs₃ := fun p hp => h' p (h p hp)

theorem extends_put (fs : FileTree) (p : Path) (e : Entry) : Extends fs (fs.put p e) := by
  intro q hq
  by_cases h : q = p
  · simp [put,h]
  · rwa [put,Function.update_of_ne h]

theorem extends_writeFile (fs : FileTree) (p : Path) (data : Bytes) :
    Extends fs (fs.writeFile p data).1 := by
  unfold writeFile
  split
  · exact fun _ h => h
  · exact extends_put fs p _

theorem extends_writeFiles (fs : FileTree) (l : List (Path × Bytes)) :
    Extends fs (fs.writeFiles l).1 := by
  induction l generalizing fs with
  | nil => exact fun _ h => h
  | cons f l ih =>
    have hfirst := extends_writeFile fs f.1 f.2
    rw [writeFiles]
    split <;> rename_i heq <;> rw [heq] at hfirst
    · exact hfirst
    · exact hfirst.trans (ih _)

/-- A name that is refused is an error. -/
theorem mkdirFrom_valid {cs : Path} (h : (fs.mkdirFrom p cs).2 = none) : cs.all ValidName := by
  induction cs generalizing fs p with
  | nil => rfl
  | cons c cs ih =>
    rw [mkdirFrom] at h
    split at h
    · cases h
    · rename_i heq
      rw [List.all_cons,ih h,Bool.and_true]
      by_contra hc
      simp [mkdir,hc] at heq

/-- A tree without files. -/
def OnlyDirs (fs : FileTree) : Prop := ∀ q, fs q = none ∨ fs q = some .dir

theorem OnlyDirs.mkdir (hfs : fs.OnlyDirs) {c : Bytes} (hc : ValidName c) (p : Path) :
    (fs.mkdir p c).2 = none ∧ (fs.mkdir p c).1 (p ++ [c]) = some .dir ∧
      (fs.mkdir p c).1.OnlyDirs := by
  rcases hfs (p ++ [c]) with h | h
  · have heq : fs.mkdir p c = (fs.put (p ++ [c]) .dir,none) := by simp [FileTree.mkdir,hc,h]
    rw [heq]
    refine ⟨rfl,by simp [put],fun q => ?_⟩
    by_cases hq : q = p ++ [c]
    · simp [put,hq]
    · simpa [put,Function.update_of_ne hq] using hfs q
  · have heq : fs.mkdir p c = (fs,none) := by simp [FileTree.mkdir,hc,h]
    rw [heq]
    exact ⟨rfl,h,hfs⟩

/-- In a tree without files, directories are made as far as their names are valid. -/
theorem OnlyDirs.mkdirFrom {cs : Path} (hfs : fs.OnlyDirs) (q : Path)
    (hq : q <+: cs.takeWhile ValidName) (hne : q ≠ []) :
    (fs.mkdirFrom p cs).1 (p ++ q) = some .dir := by
  induction cs generalizing fs p q with
  | nil => exact absurd (List.prefix_nil.mp hq) hne
  | cons c cs ih =>
    cases hc : ValidName c with
    | false =>
      rw [List.takeWhile_cons,hc] at hq
      exact absurd (List.prefix_nil.mp hq) hne
    | true =>
      obtain ⟨hnone,hdir,honly⟩ := hfs.mkdir hc p
      rw [List.takeWhile_cons,if_pos hc] at hq
      obtain _ | ⟨c',q⟩ := q
      · exact absurd rfl hne
      obtain ⟨rfl,hq'⟩ := List.cons_prefix_cons.mp hq
      have hstep : fs.mkdirFrom p (c'::cs) = (fs.mkdir p c').1.mkdirFrom (p ++ [c']) cs := by
        rw [FileTree.mkdirFrom]
        split <;> rename_i heq <;> simp_all
      rw [hstep]
      by_cases hnil : q = []
      · subst hnil
        have hsame : SameUnless (fun x => x ≠ p ++ [c']) (fs.mkdir p c').1
            ((fs.mkdir p c').1.mkdirFrom (p ++ [c']) cs).1 :=
          sameUnless_mkdirFrom fun q _ hq => .inr (append_ne_of_ne_nil hq)
        rw [hsame (p ++ [c']) (by simp)]
        exact hdir
      · have h := ih (p := p ++ [c']) honly q hq' hnil
        rwa [List.append_assoc] at h

theorem OnlyDirs.mkdirFrom_none {cs : Path} (hfs : fs.OnlyDirs) (h : cs.all ValidName) :
    (fs.mkdirFrom p cs).2 = none := by
  induction cs generalizing fs p with
  | nil => rfl
  | cons c cs ih =>
    rw [List.all_cons,Bool.and_eq_true] at h
    obtain ⟨hnone,-,honly⟩ := hfs.mkdir h.1 p
    rw [FileTree.mkdirFrom]
    split <;> rename_i heq
    · simp_all
    · rw [heq] at honly
      exact ih honly h.2

end FileTree
