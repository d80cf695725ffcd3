import Memiavl.Pending

/-! What a batch of upgrades does to the trees. The batch is meant to be about the names as they were
before it; the loop looks names up in the trees as they are by then. -/
namespace Memiavl

open List Option

/-- The name that an upgrade gives to a tree. -/
def TreeNameUpgrade.given (u : TreeNameUpgrade) : Option Bytes :=
  if u.delete then none else some u.name

namespace MultiTree

def treeNamed (trees : List NamedTree) (name : Bytes) : Option StoreTree :=
  (trees.find? fun e => e.name = name).map NamedTree.tree

/-- The tree that an upgrade is meant to name, by the names before the batch. -/
def intended (new : StoreTree) (before : List NamedTree) (u : TreeNameUpgrade) : Option NamedTree :=
  if u.delete then none
  else if u.renameFrom ≠ [] then (treeNamed before u.renameFrom).map (⟨u.name,·⟩)
  else some ⟨u.name,new⟩

/-- The meaning of a batch. -/
structure Upgraded (new : StoreTree) (before : List NamedTree) (us : List TreeNameUpgrade)
    (t : MultiTree) : Prop where
  indexed : t.Indexed
  renamed : ∀ u ∈ us, u.delete = false → u.renameFrom ≠ [] →
    treeNamed t.trees u.name = treeNamed before u.renameFrom
  added : ∀ u ∈ us, u.delete = false → u.renameFrom = [] → treeNamed t.trees u.name = some new
  gone : ∀ u ∈ us, ∀ name ∈ u.lookedUp, (∀ u' ∈ us, u'.given ≠ some name) →
    treeNamed t.trees name = none
  kept : ∀ name, (∀ u ∈ us, u.lookedUp ≠ some name ∧ u.given ≠ some name) →
    treeNamed t.trees name = treeNamed before name

/-- A batch that has a meaning: no name is given twice or deleted twice, and what it deletes and
renames is there. -/
structure Batch (before : List NamedTree) (us : List TreeNameUpgrade) : Prop where
  names : (before.map NamedTree.name).Nodup
  given : (us.filterMap TreeNameUpgrade.given).Nodup
  deleted : ((us.filter TreeNameUpgrade.delete).map TreeNameUpgrade.name).Nodup
  known : ∀ u ∈ us, ∀ name ∈ u.lookedUp, name ∈ before.map NamedTree.name

/-- Every lookup finds the tree that had the name before the batch. -/
def FindsOriginals (next : UInt32) (before : List NamedTree) :
    List NamedTree → List TreeNameUpgrade → Prop
  | _,[] => True
  | trees,u::us => (∀ name ∈ u.lookedUp, treeNamed trees name = treeNamed before name) ∧
      match applyUpgrade next trees u with
      | .error _ => True
      | .ok trees => FindsOriginals next before trees us

instance FindsOriginals.decidable (next : UInt32) (before : List NamedTree) :
    (us : List TreeNameUpgrade) → (trees : List NamedTree) →
      Decidable (FindsOriginals next before trees us)
  | [],_ => .isTrue trivial
  | u::us,trees =>
    match h : applyUpgrade next trees u with
    | .error _ => decidable_of_iff
        (∀ name ∈ u.lookedUp, treeNamed trees name = treeNamed before name)
        (by simp [FindsOriginals,h])
    | .ok trees' =>
      have := FindsOriginals.decidable next before us trees'
      decidable_of_iff ((∀ name ∈ u.lookedUp, treeNamed trees name = treeNamed before name) ∧
        FindsOriginals next before trees' us) (by simp [FindsOriginals,h])

variable {next : UInt32} {before trees trees' r : List NamedTree}

variable {name : Bytes} {u : TreeNameUpgrade} {new : StoreTree} {e : NamedTree}
  {done us : List TreeNameUpgrade}

theorem treeNamed_eq_some (hnames : (trees.map NamedTree.name).Nodup) {tree : StoreTree} :
    treeNamed trees name = some tree ↔ ⟨name,tree⟩ ∈ trees := by
  rw [treeNamed,map_eq_some_iff]
  constructor
  · rintro ⟨e,he,rfl⟩
    have hname : e.name = name := by simpa using find?_some he
    have hmem := mem_of_find?_eq_some he
    rwa [← hname]
  · intro hmem
    cases hfind : trees.find? fun e => e.name = name with
    | none => exact absurd (find?_eq_none.mp hfind _ hmem) (by simp)
    | some e =>
      have hname : e.name = name := by simpa using find?_some hfind
      have heq := inj_on_of_nodup_map hnames (mem_of_find?_eq_some hfind) hmem hname
      exact ⟨e,rfl,congrArg NamedTree.tree heq⟩

theorem treeNamed_eq_none : treeNamed trees name = none ↔ ∀ e ∈ trees, e.name ≠ name := by
  rw [treeNamed,map_eq_none_iff,find?_eq_none]
  simp

theorem exists_treeNamed (h : name ∈ trees.map NamedTree.name) :
    ∃ tree, treeNamed trees name = some tree := by
  refine ne_none_iff_exists'.mp fun hnone => ?_
  obtain ⟨e,he,hname⟩ := List.mem_map.mp h
  exact treeNamed_eq_none.mp hnone e he hname

theorem treeNamed_of_findIdx {i : ℕ} (h : trees.findIdx? (fun e => e.name = name) = some i) :
    ∃ hi : i < trees.length, trees[i].name = name ∧ treeNamed trees name = some trees[i].tree := by
  obtain ⟨hlt,hname,hfirst⟩ := findIdx?_eq_some_iff_getElem.mp h
  have hfind : trees.find? (fun e => e.name = name) = some trees[i] :=
    find?_eq_some_iff_getElem.mpr ⟨hname,i,hlt,rfl,fun j hj => by simpa using hfirst j hj⟩
  exact ⟨hlt,by simpa using hname,by rw [treeNamed,hfind]; rfl⟩

theorem perm_modify {i : ℕ} (hi : i < trees.length) (f : NamedTree → NamedTree) :
    (trees.modify i f).Perm (f trees[i]::trees.eraseIdx i) := by
  rw [modify_eq_set_getElem? ,getElem?_eq_getElem hi]
  exact set_perm_cons_eraseIdx hi _

/-- What an upgrade does: it adds a tree, or it takes the first tree with a name and gives it back
under another name, if it is not a deletion. -/
theorem applyUpgrade_ok (h : applyUpgrade next trees u = .ok trees') :
    (u.lookedUp = none ∧ trees'.Perm (⟨u.name,.newWithInitialVersion next⟩::trees)) ∨
      ∃ e rest, u.lookedUp = some e.name ∧ treeNamed trees e.name = some e.tree ∧
        trees.Perm (e::rest) ∧
        trees'.Perm ((u.given.map fun name => ⟨name,e.tree⟩).toList ++ rest) := by
  unfold applyUpgrade at h
  split_ifs at h with hdelete hfrom
  · split at h <;> cases h
    rename_i i hi
    obtain ⟨hlt,hname,hnamed⟩ := treeNamed_of_findIdx hi
    refine .inr ⟨trees[i],trees.eraseIdx i,?_,hname ▸ hnamed,?_,?_⟩
    · simp [TreeNameUpgrade.lookedUp,hdelete,hname]
    · exact (getElem_cons_eraseIdx_perm hlt).symm
    · simpa [TreeNameUpgrade.given,hdelete] using perm_swapDelete hlt
  · split at h <;> cases h
    rename_i i hi
    obtain ⟨hlt,hname,hnamed⟩ := treeNamed_of_findIdx hi
    refine .inr ⟨trees[i],trees.eraseIdx i,?_,hname ▸ hnamed,?_,?_⟩
    · simp [TreeNameUpgrade.lookedUp,hdelete,hfrom,hname]
    · exact (getElem_cons_eraseIdx_perm hlt).symm
    · simpa [TreeNameUpgrade.given,hdelete] using perm_modify hlt _
  · cases h
    refine .inl ⟨by simp [TreeNameUpgrade.lookedUp,hdelete,hfrom],?_⟩
    exact perm_append_singleton ..

/-- The trees that no upgrade of the list has looked up, and those that were named by it. -/
def meant (new : StoreTree) (before : List NamedTree) (us : List TreeNameUpgrade) : List NamedTree :=
  before.filter (fun e => e.name ∉ us.filterMap TreeNameUpgrade.lookedUp) ++
    us.filterMap (intended new before)

theorem intended_given (h : intended new before u = some e) : u.given = some e.name := by
  unfold intended at h
  unfold TreeNameUpgrade.given
  split_ifs at h ⊢ with hdelete hfrom
  · obtain ⟨tree,-,rfl⟩ := map_eq_some_iff.mp h
    rfl
  · cases h
    rfl

/-- What an upgrade names if it finds the tree that it should find. -/
theorem intended_of_lookedUp (hlook : u.lookedUp = some e.name)
    (hnamed : treeNamed before e.name = some e.tree) :
    intended new before u = u.given.map fun name => ⟨name,e.tree⟩ := by
  unfold TreeNameUpgrade.lookedUp at hlook
  unfold intended TreeNameUpgrade.given
  split_ifs at hlook ⊢ with hdelete hfrom
  · rfl
  · rw [some.inj hlook,hnamed]
    rfl

theorem intended_of_not_lookedUp {new : StoreTree} {u : TreeNameUpgrade} (h : u.lookedUp = none) :
    intended new before u = some ⟨u.name,new⟩ := by
  unfold TreeNameUpgrade.lookedUp at h
  unfold intended
  split_ifs at h ⊢
  rfl

section
variable (hnames : (before.map NamedTree.name).Nodup)
include hnames

theorem perm_filter_lookedUp {looked : List Bytes} (he : e ∈ before) (hnew : e.name ∉ looked) :
    (before.filter fun x => x.name ∉ looked).Perm
      (e::before.filter fun x => x.name ∉ looked ++ [e.name]) := by
  induction before with
  | nil => cases he
  | cons x xs ih =>
    obtain ⟨hx,hxs⟩ := nodup_cons.mp hnames
    by_cases hxe : x = e
    · subst hxe
      have hrest : xs.filter (fun y => y.name ∉ looked ++ [x.name]) =
          xs.filter fun y => y.name ∉ looked := by
        refine List.filter_congr fun y hy => ?_
        have hne : y.name ≠ x.name := fun h => hx (h ▸ List.mem_map_of_mem hy)
        simp [hne]
      rw [filter_cons_of_pos (by simpa using hnew),filter_cons_of_neg (by simp),hrest]
    · have hmem : e ∈ xs := (mem_cons.mp he).resolve_left (Ne.symm hxe)
      have hne : x.name ≠ e.name := fun h => hx (h ▸ List.mem_map_of_mem hmem)
      have hperm := ih hxs hmem
      by_cases hlooked : x.name ∈ looked
      · rwa [filter_cons_of_neg (by simpa using hlooked),
          filter_cons_of_neg (by simp [hlooked])]
      · rw [filter_cons_of_pos (by simpa using hlooked),
          filter_cons_of_pos (by simp [hlooked,hne])]
        exact (hperm.cons x).trans (.swap ..)

/-- One upgrade that finds the tree that it should find. -/
theorem perm_meant_step (hperm : trees.Perm (meant (.newWithInitialVersion next) before done))
    (h : applyUpgrade next trees u = .ok trees')
    (hfind : ∀ name ∈ u.lookedUp, treeNamed trees name = treeNamed before name)
    (hnew : ∀ name ∈ u.lookedUp, name ∉ done.filterMap TreeNameUpgrade.lookedUp) :
    trees'.Perm (meant (.newWithInitialVersion next) before (done ++ [u])) := by
  unfold meant at hperm ⊢
  rw [filterMap_append,filterMap_append]
  obtain ⟨hlook,htrees'⟩ | ⟨e,rest,hlook,hnamed,htrees,htrees'⟩ := applyUpgrade_ok h
  · have hadd : [u].filterMap (intended (.newWithInitialVersion next) before) =
        [⟨u.name,.newWithInitialVersion next⟩] := by
      simp [intended_of_not_lookedUp hlook]
    rw [hadd,← append_assoc]
    simp only [filterMap_cons,hlook,filterMap_nil,List.append_nil]
    exact htrees'.trans ((hperm.cons _).trans (perm_append_singleton ..).symm)
  · rw [hfind _ hlook] at hnamed
    have hbefore := (treeNamed_eq_some hnames).mp hnamed
    have hgift : [u].filterMap (intended (.newWithInitialVersion next) before) =
        (u.given.map fun name => ⟨name,e.tree⟩).toList := by
      rw [← intended_of_lookedUp hlook hnamed]
      cases hint : intended (.newWithInitialVersion next) before u <;> simp [hint]
    have hlooked : [u].filterMap TreeNameUpgrade.lookedUp = [e.name] := by simp [hlook]
    have hrest : rest.Perm (before.filter (fun x => x.name ∉
        done.filterMap TreeNameUpgrade.lookedUp ++ [e.name]) ++
        done.filterMap (intended (.newWithInitialVersion next) before)) := by
      have htaken := (perm_filter_lookedUp hnames hbefore (hnew _ hlook)).append_right
        (done.filterMap (intended (.newWithInitialVersion next) before))
      exact (htrees.symm.trans (hperm.trans htaken)).cons_inv
    rw [hgift,hlooked,← append_assoc]
    exact htrees'.trans ((hrest.append_left _).trans perm_append_comm)

/-- A run whose lookups find the trees that they should find leads to the trees that are meant. -/
theorem perm_meant (hperm : trees.Perm (meant (.newWithInitialVersion next) before done))
    (hfind : FindsOriginals next before trees us)
    (hlooked : ((done ++ us).filterMap TreeNameUpgrade.lookedUp).Nodup)
    (h : upgradeTrees next trees us = (r,none)) :
    r.Perm (meant (.newWithInitialVersion next) before (done ++ us)) := by
  induction us generalizing trees done with
  | nil =>
    cases h
    rwa [List.append_nil]
  | cons u us ih =>
    rw [upgradeTrees] at h
    cases hu : applyUpgrade next trees u with
    | error err =>
      rw [hu] at h
      cases h
    | ok trees₁ =>
      rw [hu] at h
      rw [FindsOriginals,hu] at hfind
      have hnew : ∀ name ∈ u.lookedUp, name ∉ done.filterMap TreeNameUpgrade.lookedUp := by
        intro name hname hmem
        rw [filterMap_append,filterMap_cons_some hname] at hlooked
        exact (nodup_append.mp hlooked).2.2 name hmem name (by simp) rfl
      have hstep := perm_meant_step hnames hperm hu hfind.1 hnew
      rw [append_cons] at hlooked ⊢
      exact ih hstep hfind.2 hlooked h

end

theorem mem_of_not_given (hgiven : ∀ u ∈ us, u.given ≠ some name)
    (h : upgradeTrees next trees us = (r,none)) (he : e ∈ r) (hname : e.name = name) :
    e ∈ trees := by
  induction us generalizing trees with
  | nil =>
    cases h
    exact he
  | cons u us ih =>
    obtain ⟨hu,hus⟩ := forall_mem_cons.mp hgiven
    rw [upgradeTrees] at h
    cases happly : applyUpgrade next trees u with
    | error err =>
      rw [happly] at h
      cases h
    | ok trees₁ =>
      rw [happly] at h
      have hmem := ih hus h
      obtain ⟨hlook,hperm⟩ | ⟨e',rest,hlook,-,hperm,hperm'⟩ := applyUpgrade_ok happly
      · obtain rfl | hmem := mem_cons.mp (hperm.mem_iff.mp hmem)
        · refine absurd ?_ hu
          rw [intended_given (@intended_of_not_lookedUp [] ⟨0,none⟩ u hlook),← hname]
        · exact hmem
      · rw [hperm'.mem_iff,mem_append] at hmem
        obtain hgift | hmem := hmem
        · rw [mem_toList,map_eq_some_iff] at hgift
          obtain ⟨name',hname',rfl⟩ := hgift
          exact absurd (hname'.trans (congrArg some hname)) hu
        · exact hperm.mem_iff.mpr (mem_cons_of_mem _ hmem)

/-- The trees that a list of upgrades is meant to name have different names. -/
theorem nodup_intended (h : (us.filterMap TreeNameUpgrade.given).Nodup) :
    ((us.filterMap (intended new before)).map NamedTree.name).Nodup := by
  refine h.sublist ?_
  clear h
  induction us with
  | nil => exact .slnil
  | cons u us ih =>
    cases hint : intended new before u with
    | none =>
      rw [filterMap_cons_none hint]
      cases hgiven : u.given with
      | none => rwa [filterMap_cons_none hgiven]
      | some name =>
        rw [filterMap_cons_some hgiven]
        exact ih.cons _
    | some e =>
      rw [filterMap_cons_some hint,filterMap_cons_some (intended_given hint),map_cons]
      exact ih.cons_cons _

/-- If every tree ends under the name that it is meant to get, a lookup finds a tree that was there
before and that was not looked up yet: one that the batch has named would leave its name for good. -/
theorem mem_before_of_found {rest : List NamedTree} (hperm : trees.Perm (meant new before done))
    (hgiven : ((done ++ u::us).filterMap TreeNameUpgrade.given).Nodup)
    (hall : ∀ x ∈ (done ++ u::us).filterMap (intended new before), x ∈ r)
    (htrees : trees.Perm (e::rest))
    (htrees' : trees'.Perm ((u.given.map fun name => ⟨name,e.tree⟩).toList ++ rest))
    (h : upgradeTrees next trees' us = (r,none)) :
    e ∈ before.filter fun x => x.name ∉ done.filterMap TreeNameUpgrade.lookedUp := by
  by_contra hne
  have hmem : e ∈ meant new before done := (htrees.symm.trans hperm).mem_iff.mp (by simp)
  have hnamed : e ∈ done.filterMap (intended new before) :=
    (mem_append.mp hmem).resolve_left hne
  -- No other tree gets this name, so the one that was found has to be there twice.
  obtain ⟨u₀,hu₀,hint⟩ := mem_filterMap.mp hnamed
  rw [filterMap_append] at hgiven
  obtain ⟨hdone,-,hapart⟩ := nodup_append.mp hgiven
  have hlater : ∀ u' ∈ u::us, u'.given ≠ some e.name := fun u' hu' hname =>
    hapart e.name (mem_filterMap.mpr ⟨u₀,hu₀,intended_given hint⟩) e.name
      (mem_filterMap.mpr ⟨u',hu',hname⟩) rfl
  obtain ⟨hu,hus⟩ := forall_mem_cons.mp hlater
  have hr : e ∈ r := hall e (mem_filterMap.mpr ⟨u₀,mem_append_left _ hu₀,hint⟩)
  have htrees₁ := mem_of_not_given hus h hr rfl
  rw [htrees'.mem_iff,mem_append,mem_toList,map_eq_some_iff] at htrees₁
  have hrest : e ∈ rest := by
    refine htrees₁.resolve_left ?_
    rintro ⟨name,hname,heq⟩
    exact hu (hname.trans (congrArg (some ·.name) heq))
  have hcount := (htrees.symm.trans hperm).count_eq e
  have honce : (done.filterMap (intended new before)).count e ≤ 1 :=
    nodup_iff_count_le_one.mp ((nodup_intended hdone).of_map _) e
  have htwice := count_pos_iff.mpr hrest
  rw [meant,count_append,count_eq_zero_of_not_mem hne,count_cons_self] at hcount
  omega

/-- If every tree ends under the name that it is meant to get, every lookup finds the tree that had
the name before, and no name is looked up twice. -/
theorem findsOriginals_of_intended (hnames : (before.map NamedTree.name).Nodup)
    (hperm : trees.Perm (meant (.newWithInitialVersion next) before done))
    (hlooked : (done.filterMap TreeNameUpgrade.lookedUp).Nodup)
    (hgiven : ((done ++ us).filterMap TreeNameUpgrade.given).Nodup)
    (hall : ∀ x ∈ (done ++ us).filterMap (intended (.newWithInitialVersion next) before), x ∈ r)
    (h : upgradeTrees next trees us = (r,none)) :
    FindsOriginals next before trees us ∧
      ((done ++ us).filterMap TreeNameUpgrade.lookedUp).Nodup := by
  induction us generalizing trees done with
  | nil => exact ⟨trivial,by rwa [List.append_nil]⟩
  | cons u us ih =>
    rw [upgradeTrees] at h
    cases hu : applyUpgrade next trees u with
    | error err =>
      rw [hu] at h
      cases h
    | ok trees₁ =>
      rw [hu] at h
      -- What the lookup of this upgrade finds.
      have hfound : ∀ name ∈ u.lookedUp, treeNamed trees name = treeNamed before name ∧
          name ∉ done.filterMap TreeNameUpgrade.lookedUp := by
        intro name hname
        obtain ⟨hlook,-⟩ | ⟨e,rest,hlook,hnamed,htrees,htrees'⟩ := applyUpgrade_ok hu
        · rw [hlook] at hname
          cases hname
        · obtain rfl := some.inj (hlook.symm.trans hname)
          obtain ⟨he,hnew⟩ := mem_filter.mp
            (mem_before_of_found hperm hgiven hall htrees htrees' h)
          exact ⟨hnamed.trans ((treeNamed_eq_some hnames).mpr he).symm,by simpa using hnew⟩
      have hstep := perm_meant_step hnames hperm hu (fun name hname => (hfound name hname).1)
        fun name hname => (hfound name hname).2
      have hlooked' : ((done ++ [u]).filterMap TreeNameUpgrade.lookedUp).Nodup := by
        rw [filterMap_append]
        cases hlook : u.lookedUp with
        | none => simpa [hlook] using hlooked
        | some name =>
          rw [filterMap_cons_some hlook,filterMap_nil,← concat_eq_append]
          exact hlooked.concat (hfound name hlook).2
      rw [append_cons] at hgiven hall ⊢
      obtain ⟨hfind,hnodup⟩ := ih hstep hlooked' hgiven hall h
      exact ⟨⟨fun name hname => (hfound name hname).1,by rw [hu]; exact hfind⟩,hnodup⟩

/-- The trees that are meant, in the order of their names, are what the batch means. -/
theorem upgraded_of_meant {t : MultiTree} (hbatch : Batch before us) (hindexed : t.Indexed)
    (hperm : t.trees.Perm (meant new before us)) : Upgraded new before us t := by
  have hnamed : ∀ {name : Bytes} {tree : StoreTree},
      treeNamed t.trees name = some tree ↔ ⟨name,tree⟩ ∈ meant new before us := fun {_ _} =>
    (treeNamed_eq_some hindexed.strict.nodup).trans hperm.mem_iff
  have hgift : ∀ {u e}, u ∈ us → intended new before u = some e → treeNamed t.trees e.name = some e.tree :=
    fun hu hint => hnamed.mpr (mem_append_right _ (mem_filterMap.mpr ⟨_,hu,hint⟩))
  -- Trees under a name that is not given are from before.
  have hbefore : ∀ {name : Bytes} {e : NamedTree}, (∀ u ∈ us, u.given ≠ some name) →
      e ∈ meant new before us → e.name = name →
      e ∈ before ∧ name ∉ us.filterMap TreeNameUpgrade.lookedUp := by
    rintro name e hgiven hmem rfl
    obtain hold | hnew := mem_append.mp hmem
    · obtain ⟨he,hlooked⟩ := mem_filter.mp hold
      exact ⟨he,by simpa using hlooked⟩
    · obtain ⟨u,hu,hint⟩ := mem_filterMap.mp hnew
      exact absurd (intended_given hint) (hgiven u hu)
  refine ⟨hindexed,fun u hu hdelete hfrom => ?_,fun u hu hdelete hfrom => ?_,
    fun u hu name hname hgiven => ?_,fun name hother => ?_⟩
  · obtain ⟨tree,htree⟩ := exists_treeNamed (hbatch.known u hu u.renameFrom
      (by simp [TreeNameUpgrade.lookedUp,hdelete,hfrom]))
    rw [htree]
    exact hgift hu (by simp [intended,hdelete,hfrom,htree] : _ = some ⟨u.name,tree⟩)
  · exact hgift hu (by simp [intended,hdelete,hfrom] : _ = some ⟨u.name,new⟩)
  · refine treeNamed_eq_none.mpr fun e he hename => ?_
    exact (hbefore hgiven (hperm.mem_iff.mp he) hename).2 (mem_filterMap.mpr ⟨u,hu,hname⟩)
  · have hgiven : ∀ u ∈ us, u.given ≠ some name := fun u hu => (hother u hu).2
    refine ext fun tree => ?_
    rw [hnamed,treeNamed_eq_some hbatch.names]
    refine ⟨fun hmem => (hbefore hgiven hmem rfl).1,fun hmem => ?_⟩
    refine mem_append_left _ (mem_filter.mpr ⟨hmem,?_⟩)
    simp only [mem_filterMap,not_exists,not_and,decide_eq_true_eq]
    exact fun u hu => (hother u hu).1

/-- Every tree ends under the name that it is meant to get. -/
theorem Upgraded.mem_intended {t : MultiTree} (h : Upgraded new before us t)
    (he : e ∈ us.filterMap (intended new before)) : e ∈ t.trees := by
  obtain ⟨u,hu,hint⟩ := mem_filterMap.mp he
  rw [← treeNamed_eq_some h.indexed.strict.nodup]
  unfold intended at hint
  split_ifs at hint with hdelete hfrom
  · obtain ⟨tree,htree,rfl⟩ := map_eq_some_iff.mp hint
    rw [h.renamed u hu (by simpa using hdelete) hfrom,htree]
  · cases hint
    exact h.added u hu (by simpa using hdelete) (by simpa using hfrom)

/-- A batch that is accepted does what it means exactly if every lookup finds the tree that had the
name before the batch, and no name is looked up twice. An empty batch leaves everything as it is. -/
theorem applyUpgrades_means_iff {t t' : MultiTree} {us : List TreeNameUpgrade}
    (hbatch : Batch t.trees us) (h : t.applyUpgrades us = (t',none)) :
    Upgraded (.newWithInitialVersion (UInt32.ofNat (nextVersion t.version t.initialVersion)))
        t.trees us t' ↔
      (us = [] → t.Indexed) ∧ (us.filterMap TreeNameUpgrade.lookedUp).Nodup ∧
        FindsOriginals (UInt32.ofNat (nextVersion t.version t.initialVersion)) t.trees t.trees us := by
  by_cases hus : us = []
  · subst hus
    rw [applyUpgrades,if_pos rfl] at h
    obtain ⟨rfl,-⟩ := Prod.mk.inj h
    refine ⟨fun hup => ⟨fun _ => hup.indexed,nodup_nil,trivial⟩,fun hright => ?_⟩
    exact ⟨hright.1 rfl,by simp,by simp,by simp,fun _ _ => rfl⟩
  · obtain ⟨r,hrun,hnodup,rfl⟩ := (applyUpgrades_eq_ok hus).mp h
    have hsort : (sortByName r).Perm r := perm_insertionSort ..
    have hstart : t.trees.Perm (meant (.newWithInitialVersion
        (UInt32.ofNat (nextVersion t.version t.initialVersion))) t.trees []) := by
      simp [meant]
    constructor
    · intro hup
      have hfound := findsOriginals_of_intended hbatch.names hstart nodup_nil hbatch.given
        (fun x hx => hsort.mem_iff.mp (hup.mem_intended hx)) hrun
      exact ⟨fun hempty => absurd hempty hus,hfound.2,hfound.1⟩
    · rintro ⟨-,hlooked,hfind⟩
      have hperm := perm_meant hbatch.names hstart hfind hlooked hrun
      exact upgraded_of_meant hbatch ⟨KeyedList.strict_insertionSort hnodup,rfl⟩ (hsort.trans hperm)

namespace Chain

def oneKey (key : Bytes) : StoreTree := ⟨1,some (.leaf key [] 1)⟩

def twoNames : MultiTree :=
  { initialVersion := 0
    trees := [⟨[97],oneKey [1]⟩,⟨[98],oneKey [2]⟩]
    treesByName := [([97],0),([98],1)]
    lastCommitInfo := ⟨1,[]⟩ }

end Chain

open Chain in
/-- A chain from its end, `b` to `c` and then `a` to `b`. -/
theorem applyUpgrades_means_chain :
    Upgraded (.newWithInitialVersion 2) twoNames.trees
      [{ name := [99], renameFrom := [98] },{ name := [98], renameFrom := [97] }]
      (twoNames.applyUpgrades
        [{ name := [99], renameFrom := [98] },{ name := [98], renameFrom := [97] }]).1 :=
  (@applyUpgrades_means_iff twoNames _
    [{ name := [99], renameFrom := [98] },{ name := [98], renameFrom := [97] }]
    ⟨by decide,by decide,by decide,by decide⟩ (Prod.ext rfl (by decide +kernel))).mpr
    ⟨by simp,by decide,by decide +kernel⟩

open Chain in
/-- The chain from its start, `a` to `b` and then `b` to `c`: the second rename takes the tree that
was `a` to `c`, and the tree that was `b` keeps its name. -/
theorem applyUpgrades_breaks_chain :
    Batch twoNames.trees [{ name := [98], renameFrom := [97] },{ name := [99], renameFrom := [98] }] ∧
      (twoNames.applyUpgrades
        [{ name := [98], renameFrom := [97] },{ name := [99], renameFrom := [98] }]).2 = none ∧
      ¬Upgraded (.newWithInitialVersion 2) twoNames.trees
        [{ name := [98], renameFrom := [97] },{ name := [99], renameFrom := [98] }]
        (twoNames.applyUpgrades
          [{ name := [98], renameFrom := [97] },{ name := [99], renameFrom := [98] }]).1 := by
  refine ⟨⟨by decide,by decide,by decide,by decide⟩,by decide +kernel,fun h => ?_⟩
  have hrenamed := h.renamed { name := [99], renameFrom := [98] } (by simp) rfl (by simp)
  revert hrenamed
  decide +kernel

end MultiTree
end Memiavl
