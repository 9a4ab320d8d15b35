import Mathlib.Data.List.Basic
import Tofu.Selection.Merge

/-!
# The selection

`src/src/selection.rs:7–196`. A selection is a list of regions and the index of the main
one. The source states two invariants of it, that the regions are sorted and that they
do not overlap; the main region is also marked by a flag of its own. `none` is a Rust
panic. A closure given to `map_selections` may change what it captures, so it takes and
returns a state; it may itself panic.
-/

namespace Tofu

/-- `selection.rs:7–13`. -/
structure Selection where
  regions : List SelRegion
  mainSelection : Nat
  deriving DecidableEq, Repr

/-- `regions[index].main = main`. -/
def setMain (regions : List SelRegion) (index : Nat) (main : Bool) : List SelRegion :=
  regions.modify index fun r ↦ { r with main := main }

/-- The loops of `map_selections`, `selection.rs:154–166`, from region number `i` on. The
regions produced are kept in reverse. -/
def mapLoop {σ : Type} (f : σ → SelRegion → Option (σ × List SelRegion)) (mainSelection : Nat) :
    Nat → List SelRegion → σ → List SelRegion → Nat → Option (σ × List SelRegion × Nat)
  | _, [], s, regionsOut, newMainSel => some (s, regionsOut, newMainSel)
  | i, region :: regions, s, regionsOut, newMainSel => do
    let (s, newRegions) ← f s region
    let regionsOut ← pushAll regionsOut newRegions
    if i = mainSelection then
      match regionsOut with
      | [] => none
      | last :: rest =>
        mapLoop f mainSelection (i + 1) regions s ({ last with main := true } :: rest) rest.length
    else mapLoop f mainSelection (i + 1) regions s regionsOut newMainSel

namespace Selection

/-- `selection.rs:15–29`. -/
def new : Selection :=
  { regions := [{ SelRegion.new 0 0 with main := true }], mainSelection := 0 }

/-- `selection.rs:31–35`. -/
def clear (_sel : Selection) : Selection :=
  { regions := [{ SelRegion.new 0 0 with main := true }], mainSelection := 0 }

/-- `selection.rs:37–39`. -/
def lenBytes (sel : Selection) : Nat := (sel.regions.map SelRegion.len).sum

/-- `selection.rs:41–46`. -/
def retain (sel : Selection) (index : Nat) : Option Selection := do
  let main ← sel.regions[index]?
  some { regions := [{ main with main := true }], mainSelection := 0 }

/-- `selection.rs:48–55`. The index of the main region is not shifted when a region before
it goes. -/
def remove (sel : Selection) (index : Nat) : Option Selection :=
  if sel.regions.length = 1 then some sel
  else if index < sel.regions.length then
    let regions := sel.regions.eraseIdx index
    let mainSelection := min (regions.length - 1) sel.mainSelection
    some { regions := setMain regions mainSelection true, mainSelection }
  else none

/-- `selection.rs:57–64`. -/
def selectAll (sel : Selection) (bufSize : Nat) : Selection :=
  if bufSize = 0 then sel.clear
  else
    { regions := [{ caret := bufSize - 1, tail := 0, main := true }]
      mainSelection := sel.clear.mainSelection }

/-- `selection.rs:66–68`. -/
def main (sel : Selection) : Option SelRegion := sel.regions[sel.mainSelection]?

/-- `selection.rs:151–169`. -/
def mapSelections {σ : Type} (f : σ → SelRegion → Option (σ × List SelRegion)) (s : σ)
    (sel : Selection) : Option (σ × Selection) := do
  let (s, regionsOut, newMainSel) ← mapLoop f sel.mainSelection 0 sel.regions s [] 0
  some (s, { regions := regionsOut.reverse, mainSelection := newMainSel })

/-- `selection.rs:171–173`. -/
def len (sel : Selection) : Nat := sel.regions.length

/-- `selection.rs:183–187`. -/
def selectNext (sel : Selection) (count : Nat) : Option Selection :=
  if sel.mainSelection < sel.regions.length then
    let regions := setMain sel.regions sel.mainSelection false
    let mainSelection := usizeAdd sel.mainSelection count % regions.length
    some { regions := setMain regions mainSelection true, mainSelection }
  else none

/-- `selection.rs:189–195`. -/
def selectPrev (sel : Selection) (count : Nat) : Option Selection :=
  if sel.mainSelection < sel.regions.length then
    let regions := setMain sel.regions sel.mainSelection false
    let mainSelection :=
      (sel.mainSelection + regions.length - count % regions.length) % regions.length
    some { regions := setMain regions mainSelection true, mainSelection }
  else none

/-- The representation invariant: some region, regions sorted and disjoint, a main index in
range, and the main flag on that region alone. -/
structure Valid (sel : Selection) : Prop where
  nonempty : sel.regions ≠ []
  sorted : sel.regions.Pairwise Before
  main_lt : sel.mainSelection < sel.regions.length
  main_iff : ∀ k r, sel.regions[k]? = some r → (r.isMain = true ↔ k = sel.mainSelection)

/-- Regions sorted, disjoint and within a buffer of length `n`. -/
structure Placed (n : Nat) (sel : Selection) : Prop where
  sorted : sel.regions.Pairwise Before
  inBounds : ∀ r ∈ sel.regions, r.InBounds n

instance (n : Nat) (sel : Selection) : Decidable (sel.Placed n) :=
  decidable_of_iff (sel.regions.Pairwise Before ∧ ∀ r ∈ sel.regions, r.InBounds n)
    ⟨fun h ↦ ⟨h.1, h.2⟩, fun h ↦ ⟨h.1, h.2⟩⟩

/-- Disjoint regions within a buffer are no more than its offsets. -/
theorem Placed.length_le {n : Nat} {sel : Selection} (h : sel.Placed n) :
    sel.regions.length ≤ n + 1 := by
  have all : ∀ (l : List SelRegion) (k : Nat), l.Pairwise Before → (∀ r ∈ l, k ≤ r.min) →
      (∀ r ∈ l, r.InBounds n) → k ≤ n + 1 → k + l.length ≤ n + 1 := by
    intro l
    induction l with
    | nil => intro k _ _ _ hk; exact hk
    | cons r l ih =>
      intro k hs hk hb _
      obtain ⟨hr, hs⟩ := List.pairwise_cons.mp hs
      have h1 := hk r (by simp)
      have h2 := (SelRegion.inBounds_iff_max_le n r).mp (hb r (by simp))
      have h3 := r.min_le_max
      have hi := ih (r.max + 1) hs hr (fun s hs ↦ hb s (by simp [hs])) (by omega)
      rw [List.length_cons]
      omega
  have := all sel.regions 0 h.sorted (fun _ _ ↦ Nat.zero_le _) h.inBounds (Nat.zero_le _)
  omega

private theorem valid_iff (sel : Selection) :
    sel.Valid ↔ sel.regions ≠ [] ∧ sel.regions.Pairwise Before ∧
      sel.mainSelection < sel.regions.length ∧
      ∀ k : Fin sel.regions.length, (sel.regions[k].isMain = true ↔ k.val = sel.mainSelection) := by
  constructor
  · rintro ⟨h1, h2, h3, h4⟩
    exact ⟨h1, h2, h3, fun k ↦ h4 k.val _ (List.getElem?_eq_getElem k.isLt)⟩
  · rintro ⟨h1, h2, h3, h4⟩
    refine ⟨h1, h2, h3, fun k r hr ↦ ?_⟩
    obtain ⟨hk, rfl⟩ := List.getElem?_eq_some_iff.mp hr
    exact h4 ⟨k, hk⟩

instance (sel : Selection) : Decidable sel.Valid := decidable_of_iff _ (valid_iff sel).symm

end Selection

/-! ## Assembling a selection from what the closure returned -/

/-- The regions the closure returned, one list for each region. -/
def collect {σ : Type} (f : σ → SelRegion → Option (σ × List SelRegion)) :
    List SelRegion → σ → Option (σ × List (List SelRegion))
  | [], s => some (s, [])
  | region :: regions, s => do
    let (s, newRegions) ← f s region
    let (s, outputs) ← collect f regions s
    some (s, newRegions :: outputs)

/-- The loops of `map_selections` over what the closure returned. -/
def assemble (mainSelection : Nat) :
    Nat → List (List SelRegion) → List SelRegion → Nat → Option (List SelRegion × Nat)
  | _, [], out, m => some (out, m)
  | i, new :: outputs, out, m =>
    (pushAll out new).bind fun out ↦
      if i = mainSelection then
        match out with
        | [] => none
        | last :: rest =>
          assemble mainSelection (i + 1) outputs ({ last with main := true } :: rest) rest.length
      else assemble mainSelection (i + 1) outputs out m

/-- The selection made of the given outputs, when no merge panics and the main region has
something to point at. -/
def Selection.ofOutputs (mainSelection : Nat) (outputs : List (List SelRegion)) :
    Option Selection :=
  (assemble mainSelection 0 outputs [] 0).map fun p ↦
    { regions := p.1.reverse, mainSelection := p.2 }

/-- Calling the closure and merging its results can be told apart. -/
theorem mapLoop_eq {σ : Type} (f : σ → SelRegion → Option (σ × List SelRegion))
    (mainSelection i : Nat) (regions : List SelRegion) (s : σ) (out : List SelRegion) (m : Nat) :
    mapLoop f mainSelection i regions s out m =
      (collect f regions s).bind fun p ↦
        (assemble mainSelection i p.2 out m).map fun q ↦ (p.1, q) := by
  induction regions generalizing i s out m with
  | nil => rfl
  | cons region regions ih =>
    simp only [mapLoop, collect, Option.bind_eq_bind]
    cases hf : f s region with
    | none => rfl
    | some p =>
      obtain ⟨s', new⟩ := p
      simp only [Option.bind_some]
      cases hp : pushAll out new with
      | none => cases hc : collect f regions s' <;> simp [assemble, hp]
      | some mid =>
        by_cases hi : i = mainSelection
        · cases mid with
          | nil => cases hc : collect f regions s' <;> simp [assemble, hp, hi]
          | cons last rest =>
            simp only [Option.bind_some, if_pos hi, ih]
            cases hc : collect f regions s' <;> simp [assemble, hp, hi]
        · simp only [Option.bind_some, if_neg hi, ih]
          cases hc : collect f regions s' <;> simp [assemble, hp, hi]

/-- `map_selections` is the assembly of what the closure returns. -/
theorem Selection.mapSelections_eq {σ : Type} (f : σ → SelRegion → Option (σ × List SelRegion))
    (s : σ) (sel : Selection) :
    sel.mapSelections f s =
      (collect f sel.regions s).bind fun p ↦
        (ofOutputs sel.mainSelection p.2).map fun sel' ↦ (p.1, sel') := by
  rw [mapSelections, mapLoop_eq]
  cases collect f sel.regions s with
  | none => rfl
  | some p =>
    simp only [ofOutputs, Option.bind_some, Option.bind_eq_bind]
    cases assemble sel.mainSelection 0 p.2 [] 0 <;> rfl

/-- What a round keeps and the main flag does not touch holds of the assembled regions. -/
theorem assemble_induction {I : List SelRegion → List SelRegion → Prop}
    (hstep : ∀ out r rs out', I out (r :: rs) → pushRegion out r = some out' → I out' rs)
    (hmain : ∀ last rest rs, I (last :: rest) rs → I ({ last with main := true } :: rest) rs)
    {mainSelection i m m' : Nat} {outputs : List (List SelRegion)} {out out' : List SelRegion}
    (h : assemble mainSelection i outputs out m = some (out', m')) (hi : I out outputs.flatten) :
    I out' [] := by
  induction outputs generalizing i out m with
  | nil =>
    simp only [assemble, Option.some.injEq, Prod.mk.injEq] at h
    rw [← h.1]
    exact hi
  | cons new outputs ih =>
    obtain ⟨mid, hp, h⟩ := Option.bind_eq_some_iff.mp h
    have hmid : I mid outputs.flatten := pushAll_induction hstep hp hi
    split at h
    · cases mid with
      | nil => simp at h
      | cons last rest => exact ih h (hmain last rest _ hmid)
    · exact ih h hmid

/-- Outputs that start one behind the other give sorted, disjoint regions. -/
theorem sorted_of_assemble {mainSelection i m m' : Nat} {outputs : List (List SelRegion)}
    {out' : List SelRegion} (h : assemble mainSelection i outputs [] m = some (out', m'))
    (ho : outputs.flatten.Pairwise fun r s ↦ r.min ≤ s.min) : out'.reverse.Pairwise Before := by
  have hi : Ordered [] outputs.flatten := ⟨List.Pairwise.nil, by simp, ho⟩
  have hord : Ordered out' [] := by
    refine assemble_induction (I := Ordered) (fun _ _ _ _ hi hp ↦ hi.pushRegion hp) ?_ h hi
    rintro last rest rs ⟨hd, hh, hr⟩
    refine ⟨List.pairwise_cons.mpr (List.pairwise_cons.mp hd), fun x hx ↦ ?_, hr⟩
    obtain rfl : { last with main := true } = x := by simpa using hx
    exact hh last (by simp)
  exact List.pairwise_reverse.mpr hord.desc

/-- Cursors give sorted, disjoint regions in whatever order they come. -/
theorem sorted_of_assemble_cursors {mainSelection i m m' : Nat} {outputs : List (List SelRegion)}
    {out' : List SelRegion} (h : assemble mainSelection i outputs [] m = some (out', m'))
    (ho : ∀ r ∈ outputs.flatten, r.caret = r.tail) : out'.reverse.Pairwise Before := by
  have hi : Cursors [] outputs.flatten := ⟨List.Pairwise.nil, by simp, ho⟩
  have hcur : Cursors out' [] := by
    refine assemble_induction (I := Cursors) (fun _ _ _ _ hi hp ↦ hi.pushRegion hp) ?_ h hi
    rintro last rest rs ⟨hd, hc, hr⟩
    exact ⟨List.pairwise_cons.mpr (List.pairwise_cons.mp hd),
      List.forall_mem_cons.mpr (List.forall_mem_cons.mp hc), hr⟩
  exact List.pairwise_reverse.mpr hcur.desc

/-- What merging and the main flag keep holds of the assembled regions when it holds of the
outputs. -/
theorem forall_of_assemble {P : SelRegion → Prop}
    (hmerge : ∀ a b m, P a → P b → SelRegion.IsMerge a b m → P m)
    (hflag : ∀ r : SelRegion, P r → P { r with main := true })
    {mainSelection i m m' : Nat} {outputs : List (List SelRegion)} {out' : List SelRegion}
    (h : assemble mainSelection i outputs [] m = some (out', m'))
    (ho : ∀ r ∈ outputs.flatten, P r) : ∀ r ∈ out', P r := by
  have hi : (∀ r ∈ ([] : List SelRegion), P r) ∧ ∀ r ∈ outputs.flatten, P r := ⟨by simp, ho⟩
  refine (assemble_induction (I := fun out rs ↦ (∀ r ∈ out, P r) ∧ ∀ r ∈ rs, P r) ?_ ?_ h hi).1
  · intro out r rs out' ⟨ho, hr⟩ hp
    obtain ⟨hr, hrs⟩ := List.forall_mem_cons.mp hr
    exact ⟨forall_pushRegion hmerge hp ho hr, hrs⟩
  · intro last rest rs ⟨ho, hr⟩
    obtain ⟨hl, hrest⟩ := List.forall_mem_cons.mp ho
    exact ⟨List.forall_mem_cons.mpr ⟨hflag last hl, hrest⟩, hr⟩

/-! ### The main flag -/

private theorem flags_pushAll {out new out' : List SelRegion} (h : pushAll out new = some out')
    (hn : ∀ r ∈ new, r.main = false) :
    ∃ a, out'.map SelRegion.main = List.replicate a false ++ out.map SelRegion.main := by
  induction new generalizing out with
  | nil =>
    rw [pushAll_nil, Option.some.injEq] at h
    exact ⟨0, by rw [← h]; rfl⟩
  | cons r new ih =>
    obtain ⟨hr, hn⟩ := List.forall_mem_cons.mp hn
    obtain ⟨mid, hp, h⟩ := Option.bind_eq_some_iff.mp h
    obtain ⟨a, ha⟩ := ih h hn
    rcases pushRegion_cases hp with ⟨rfl, rfl⟩ | ⟨last, rest, rfl, _, rfl⟩ |
      ⟨last, rest, m, rfl, _, hm, rfl⟩
    · exact ⟨a + 1, by rw [ha, List.replicate_succ']; simp [hr]⟩
    · exact ⟨a + 1, by rw [ha, List.replicate_succ']; simp [hr]⟩
    · exact ⟨a, by rw [ha, List.map_cons, List.map_cons, hm.main_eq, hr, Bool.or_false]⟩

private theorem flags_assemble_after {mainSelection i m m' : Nat} {outputs : List (List SelRegion)}
    {out out' : List SelRegion} (h : assemble mainSelection i outputs out m = some (out', m'))
    (hn : ∀ r ∈ outputs.flatten, r.main = false) (hi : mainSelection < i) :
    m' = m ∧ ∃ a, out'.map SelRegion.main = List.replicate a false ++ out.map SelRegion.main := by
  induction outputs generalizing i out with
  | nil =>
    simp only [assemble, Option.some.injEq, Prod.mk.injEq] at h
    exact ⟨h.2.symm, 0, by rw [← h.1]; rfl⟩
  | cons new outputs ih =>
    rw [List.flatten_cons, List.forall_mem_append] at hn
    obtain ⟨mid, hp, h⟩ := Option.bind_eq_some_iff.mp h
    rw [if_neg (by omega)] at h
    obtain ⟨hm, a, ha⟩ := ih h hn.2 (by omega)
    obtain ⟨b, hb⟩ := flags_pushAll hp hn.1
    exact ⟨hm, a + b, by rw [ha, hb, ← List.append_assoc, List.replicate_append_replicate]⟩

/-- What the closure returned for the region at an index, except for the last region when
that index is the main one: that region gets the flag in any case. -/
def unflagged (mainSelection k : Nat) (new : List SelRegion) : List SelRegion :=
  if k = mainSelection then new.dropLast else new

/-- Only what the main region became last carries the flag. -/
def Fresh (mainSelection i : Nat) (outputs : List (List SelRegion)) : Prop :=
  ∀ k new, outputs[k]? = some new → ∀ r ∈ unflagged mainSelection (i + k) new, r.main = false

private theorem Fresh.tail {mainSelection i : Nat} {new : List SelRegion}
    {outputs : List (List SelRegion)} (h : Fresh mainSelection i (new :: outputs)) :
    Fresh mainSelection (i + 1) outputs := by
  intro k new' hk
  rw [Nat.add_assoc, Nat.add_comm 1 k]
  exact h (k + 1) new' hk

private theorem Fresh.flatten {mainSelection i : Nat} {outputs : List (List SelRegion)}
    (h : Fresh mainSelection i outputs) (hi : mainSelection < i) :
    ∀ r ∈ outputs.flatten, r.main = false := by
  intro r hr
  obtain ⟨new, hnew, hr⟩ := List.mem_flatten.mp hr
  obtain ⟨k, hk⟩ := List.mem_iff_getElem?.mp hnew
  refine h k new hk r ?_
  rwa [unflagged, if_neg (by omega)]

private theorem main_of_pushAll {out new mid : List SelRegion} (hp : pushAll out new = some mid)
    (hn : ∀ r ∈ new, r.main = false) (ho : ∀ r ∈ out, r.main = false) :
    ∀ r ∈ mid, r.main = false := by
  obtain ⟨a, ha⟩ := flags_pushAll hp hn
  intro r hr
  have hr : r.main ∈ mid.map SelRegion.main := List.mem_map_of_mem hr
  rw [ha, List.mem_append, List.mem_replicate, List.mem_map] at hr
  rcases hr with hr | ⟨s, hs, hr⟩
  · exact hr.2
  · exact hr.symm.trans (ho s hs)

/-- Two lists of regions are pushed one after the other. -/
theorem pushAll_append (out new new' : List SelRegion) :
    pushAll out (new ++ new') = (pushAll out new).bind (pushAll · new') := by
  rw [pushAll, List.foldlM_append]
  rfl

private theorem main_of_pushAll_last {out new rest : List SelRegion} {last : SelRegion}
    (hp : pushAll out new = some (last :: rest)) (hn : ∀ r ∈ new.dropLast, r.main = false)
    (ho : ∀ r ∈ out, r.main = false) : ∀ r ∈ rest, r.main = false := by
  rcases List.eq_nil_or_concat new with rfl | ⟨init, r, rfl⟩
  · obtain ⟨rfl⟩ := hp
    exact (List.forall_mem_cons.mp ho).2
  · rw [List.concat_eq_append, List.dropLast_concat] at hn
    rw [List.concat_eq_append, pushAll_append] at hp
    obtain ⟨mid, hm, hp⟩ := Option.bind_eq_some_iff.mp hp
    have hmid := main_of_pushAll hm hn ho
    have hp : pushRegion mid r = some (last :: rest) := by simpa using hp
    rcases pushRegion_cases hp with ⟨_, h⟩ | ⟨_, _, _, _, h⟩ | ⟨_, _, _, rfl, _, _, h⟩ <;>
      obtain ⟨-, rfl⟩ := List.cons.inj h
    · simp
    · exact hmid
    · exact (List.forall_mem_cons.mp hmid).2

/-- The assembled regions carry one flag, at the main index. -/
theorem flags_assemble {mainSelection i m m' : Nat} {outputs : List (List SelRegion)}
    {out out' : List SelRegion} (h : assemble mainSelection i outputs out m = some (out', m'))
    (hn : Fresh mainSelection i outputs) (ho : ∀ r ∈ out, r.main = false)
    (hi : i ≤ mainSelection) (hl : mainSelection < i + outputs.length) :
    ∃ a, out'.map SelRegion.main = List.replicate a false ++ true :: List.replicate m' false := by
  induction outputs generalizing i out m with
  | nil => simp at hl; omega
  | cons new outputs ih =>
    have hnew : ∀ r ∈ unflagged mainSelection i new, r.main = false := hn 0 new rfl
    obtain ⟨mid, hp, h⟩ := Option.bind_eq_some_iff.mp h
    split at h
    · next hi =>
      cases mid with
      | nil => simp at h
      | cons last rest =>
        rw [unflagged, if_pos hi] at hnew
        have hrest := main_of_pushAll_last hp hnew ho
        obtain ⟨rfl, a, ha⟩ := flags_assemble_after h (hn.tail.flatten (by omega)) (by omega)
        refine ⟨a, ha.trans ?_⟩
        rw [List.map_cons, List.map_eq_replicate_iff.mpr hrest]
    · next hi' =>
      rw [unflagged, if_neg hi'] at hnew
      exact ih h hn.tail (main_of_pushAll hp hnew ho) (by omega)
        (by rw [List.length_cons] at hl; omega)

/-! ### When assembling panics -/

private theorem pushAll_eq_some_nil {out new : List SelRegion} (h : pushAll out new = some []) :
    out = [] ∧ new = [] := by
  induction new generalizing out with
  | nil => exact ⟨by simpa using h, rfl⟩
  | cons r new ih =>
    obtain ⟨mid, hp, h⟩ := Option.bind_eq_some_iff.mp h
    obtain ⟨rfl, rfl⟩ := ih h
    rcases pushRegion_cases hp with ⟨_, h⟩ | ⟨_, _, _, _, h⟩ | ⟨_, _, _, _, _, _, h⟩ <;> simp at h

private theorem head_or_flatten {out new mid : List SelRegion} {k : Nat}
    (outputs : List (List SelRegion)) (hp : pushAll out new = some mid) :
    (mid ≠ [] ∨ (outputs.take k).flatten ≠ []) ↔
      (out ≠ [] ∨ ((new :: outputs).take (k + 1)).flatten ≠ []) := by
  rw [List.take_succ_cons, List.flatten_cons, Ne, Ne, Ne, Ne, List.append_eq_nil_iff]
  have hnil : mid = [] ↔ out = [] ∧ new = [] := by
    constructor
    · rintro rfl
      exact pushAll_eq_some_nil hp
    · rintro ⟨rfl, rfl⟩
      simpa using hp.symm
  rw [hnil]
  tauto

/-- For outputs that come in order, assembling panics on a clash and on a main region with
nothing at or before it. -/
theorem isSome_assemble_iff {mainSelection i m : Nat} {outputs : List (List SelRegion)}
    {out : List SelRegion} (hs : (out.head?.toList ++ outputs.flatten).Pairwise NotBehind) :
    (assemble mainSelection i outputs out m).isSome ↔
      ¬ ClashOn Touch SelRegion.Opposed (out.head?.toList ++ outputs.flatten) ∧
      (i ≤ mainSelection → mainSelection < i + outputs.length →
        out ≠ [] ∨ (outputs.take (mainSelection + 1 - i)).flatten ≠ []) := by
  induction outputs generalizing i out m with
  | nil =>
    have hn : ¬ ClashOn Touch SelRegion.Opposed (out.head?.toList ++ [].flatten) := by
      cases out <;> simp
    simp only [assemble, Option.isSome_some, List.length_nil, true_iff]
    exact ⟨hn, fun h1 h2 ↦ absurd h2 (by omega)⟩
  | cons new outputs ih =>
    rw [List.flatten_cons] at hs ⊢
    have hc := clashOn_pushAll hs
    cases hp : pushAll out new with
    | none =>
      rw [hp] at hc
      simp [assemble, hp, hc]
    | some mid =>
      rw [hp] at hc
      obtain ⟨hiff, hmid⟩ := hc
      simp only [assemble, hp, Option.bind_some, hiff, List.length_cons]
      by_cases hi : i = mainSelection
      · have hk : mainSelection + 1 - i = 0 + 1 := by omega
        rw [if_pos hi, hk, ← head_or_flatten outputs hp]
        cases mid with
        | nil => simp [hi]
        | cons last rest =>
          obtain ⟨hl, ho⟩ := List.pairwise_cons.mp hmid
          have hflag : (({ last with main := true } :: rest).head?.toList ++
              outputs.flatten).Pairwise NotBehind := List.pairwise_cons.mpr ⟨hl, ho⟩
          refine (ih hflag).trans ?_
          simp only [List.head?_cons, Option.toList_some, List.singleton_append, clashOn_setMain]
          simp
      · rw [if_neg hi, ih hmid]
        refine and_congr_right fun _ ↦ ?_
        by_cases hlt : i < mainSelection
        · have hk : mainSelection + 1 - i = (mainSelection + 1 - (i + 1)) + 1 := by omega
          rw [hk, ← head_or_flatten outputs hp]
          exact ⟨fun h _ h2 ↦ h hlt (by omega), fun h _ h2 ↦ h (by omega) (by omega)⟩
        · exact ⟨fun _ h1 ↦ absurd h1 (by omega), fun _ h1 ↦ absurd h1 (by omega)⟩

namespace Selection

/-- One flag at the main index and sorted, disjoint regions make a valid selection. -/
theorem valid_of_flags {regions : List SelRegion} {m a : Nat} (hs : regions.Pairwise Before)
    (hf : regions.map SelRegion.main = List.replicate m false ++ true :: List.replicate a false) :
    Valid { regions := regions, mainSelection := m } := by
  have hl : regions.length = m + (a + 1) := by
    have := congrArg List.length hf
    simpa using this
  refine ⟨fun h ↦ ?_, hs, by simp only; omega, fun k r hr ↦ ?_⟩
  · simp only at h
    rw [h] at hl
    simp at hl
  · have hk : (regions.map SelRegion.main)[k]? = some r.main := by simp [hr]
    rw [hf, List.getElem?_append, List.length_replicate] at hk
    simp only [SelRegion.isMain]
    split at hk
    · next h =>
      rw [List.getElem?_replicate, if_pos h, Option.some.injEq] at hk
      rw [← hk]
      exact ⟨by simp, by omega⟩
    · next h =>
      rcases Nat.eq_or_lt_of_le (Nat.not_lt.mp h) with rfl | h
      · simp only [Nat.sub_self, List.getElem?_cons_zero, Option.some.injEq] at hk
        exact ⟨fun _ ↦ rfl, fun _ ↦ hk.symm⟩
      · obtain ⟨j, hj⟩ : ∃ j, k - m = j + 1 := ⟨k - m - 1, by omega⟩
        rw [hj, List.getElem?_cons_succ, List.getElem?_replicate] at hk
        split at hk
        · rw [Option.some.injEq] at hk
          rw [← hk]
          exact ⟨by simp, by omega⟩
        · simp at hk

/-- Fresh outputs assemble to a valid selection when they come out sorted and disjoint. -/
theorem valid_of_ofOutputs {mainSelection : Nat} {outputs : List (List SelRegion)}
    {sel : Selection} (h : ofOutputs mainSelection outputs = some sel)
    (hn : Fresh mainSelection 0 outputs) (hl : mainSelection < outputs.length)
    (ho : (outputs.flatten.Pairwise fun r s ↦ r.min ≤ s.min) ∨
      ∀ r ∈ outputs.flatten, r.caret = r.tail) : sel.Valid := by
  obtain ⟨⟨out, m⟩, h', rfl⟩ := Option.map_eq_some_iff.mp h
  obtain ⟨a, ha⟩ := flags_assemble h' hn (by simp) (Nat.zero_le _) (by omega)
  have hs : out.reverse.Pairwise Before := by
    rcases ho with ho | ho
    · exact sorted_of_assemble h' ho
    · exact sorted_of_assemble_cursors h' ho
  refine valid_of_flags hs (a := a) ?_
  rw [List.map_reverse, ha]
  simp

/-- What merging and the main flag keep holds of a selection when it holds of what it was
assembled from. -/
theorem forall_of_ofOutputs {P : SelRegion → Prop}
    (hmerge : ∀ a b m, P a → P b → SelRegion.IsMerge a b m → P m)
    (hflag : ∀ r : SelRegion, P r → P { r with main := true }) {mainSelection : Nat}
    {outputs : List (List SelRegion)} {sel : Selection}
    (h : ofOutputs mainSelection outputs = some sel) (ho : ∀ r ∈ outputs.flatten, P r) :
    ∀ r ∈ sel.regions, P r := by
  obtain ⟨⟨out, m⟩, h', rfl⟩ := Option.map_eq_some_iff.mp h
  simpa using forall_of_assemble hmerge hflag h' ho

/-- Assembling adds no regions. -/
theorem length_of_ofOutputs {mainSelection : Nat} {outputs : List (List SelRegion)}
    {sel : Selection} (h : ofOutputs mainSelection outputs = some sel) :
    sel.regions.length ≤ outputs.flatten.length := by
  obtain ⟨⟨out, m⟩, h', rfl⟩ := Option.map_eq_some_iff.mp h
  have hi : ([] : List SelRegion).length + outputs.flatten.length ≤ outputs.flatten.length := by
    simp
  have hout : out.length + ([] : List SelRegion).length ≤ outputs.flatten.length := by
    refine assemble_induction
      (I := fun out rs ↦ out.length + rs.length ≤ outputs.flatten.length) ?_ ?_ h' hi
    · intro out r rs out' hle hp
      rw [List.length_cons] at hle
      rcases pushRegion_cases hp with ⟨rfl, rfl⟩ | ⟨last, rest, rfl, -, rfl⟩ |
        ⟨last, rest, m, rfl, -, -, rfl⟩ <;>
        simp only [List.length_cons, List.length_nil] at hle ⊢ <;> omega
    · exact fun _ _ _ hle ↦ hle
  simpa using hout

/-- Outputs in bounds assemble to a selection in bounds. -/
theorem inBounds_of_ofOutputs {n mainSelection : Nat} {outputs : List (List SelRegion)}
    {sel : Selection} (h : ofOutputs mainSelection outputs = some sel)
    (ho : ∀ r ∈ outputs.flatten, r.InBounds n) : ∀ r ∈ sel.regions, r.InBounds n := by
  refine forall_of_ofOutputs (fun a b m ha hb hm ↦ ?_) (fun _ hr ↦ hr) h ho
  rw [SelRegion.inBounds_iff_max_le] at ha hb ⊢
  rw [hm.max_eq]
  exact Nat.max_le.mpr ⟨ha, hb⟩

/-- For outputs that come in order, assembling panics on a clash and on a main region with
nothing at or before it. -/
theorem isSome_ofOutputs_iff {mainSelection : Nat} {outputs : List (List SelRegion)}
    (hs : outputs.flatten.Pairwise NotBehind) :
    (ofOutputs mainSelection outputs).isSome ↔
      ¬ ClashOn Touch SelRegion.Opposed outputs.flatten ∧
        (mainSelection < outputs.length → (outputs.take (mainSelection + 1)).flatten ≠ []) := by
  rw [ofOutputs, Option.isSome_map, isSome_assemble_iff (by simpa using hs)]
  simp

/-- A closure that keeps no state and never panics. -/
def pureClosure (g : SelRegion → List SelRegion) :
    Unit → SelRegion → Option (Unit × List SelRegion) :=
  fun _ r ↦ some ((), g r)

/-- The selection that mapping a closure without state leaves. -/
def mapRegions (g : SelRegion → List SelRegion) (sel : Selection) : Option Selection :=
  ofOutputs sel.mainSelection (sel.regions.map g)

/-- A closure without state is mapped over the regions. -/
theorem collect_pureClosure (g : SelRegion → List SelRegion) (regions : List SelRegion) :
    collect (pureClosure g) regions () = some ((), regions.map g) := by
  induction regions with
  | nil => rfl
  | cons r regions ih => simp [collect, pureClosure, ih]

/-- Mapping a closure without state is mapping its function. -/
theorem mapSelections_pure (g : SelRegion → List SelRegion) (sel : Selection) :
    sel.mapSelections (pureClosure g) () = (sel.mapRegions g).map fun sel' ↦ ((), sel') := by
  rw [mapSelections_eq, collect_pureClosure]
  rfl

/-- Mapping a closure without state leaves `mapRegions`. -/
theorem map_snd_mapSelections (g : SelRegion → List SelRegion) (sel : Selection) :
    (sel.mapSelections (pureClosure g) ()).map Prod.snd = sel.mapRegions g := by
  rw [mapSelections_pure]
  cases sel.mapRegions g <;> rfl

/-- Only what the function does with the regions matters. -/
theorem mapRegions_congr {g g' : SelRegion → List SelRegion} {sel : Selection}
    (h : ∀ r ∈ sel.regions, g r = g' r) : sel.mapRegions g = sel.mapRegions g' := by
  rw [mapRegions, mapRegions, List.map_congr_left h]

/-- One region for each is a list of regions. -/
theorem flatten_map_singleton (g : SelRegion → SelRegion) (regions : List SelRegion) :
    (regions.map fun r ↦ [g r]).flatten = regions.map g := by
  induction regions with
  | nil => rfl
  | cons r regions ih => simp [ih]

/-- Mapping each region to one region, in order, panics on a clash only. -/
theorem isSome_mapRegions_iff {g : SelRegion → SelRegion} {sel : Selection}
    (hs : (sel.regions.map g).Pairwise NotBehind) :
    (sel.mapRegions fun r ↦ [g r]).isSome ↔
      ¬ ClashOn Touch SelRegion.Opposed (sel.regions.map g) := by
  rw [mapRegions, isSome_ofOutputs_iff (by rwa [flatten_map_singleton]), flatten_map_singleton,
    ← List.map_take, flatten_map_singleton, and_iff_left_iff_imp]
  intro _ hm hn
  rw [List.length_map] at hm
  have := congrArg List.length hn
  simp only [List.length_map, List.length_take, List.length_nil] at this
  omega

/-- A region behind all others is pushed. -/
theorem pushAll_of_before {out : List SelRegion} {r : SelRegion}
    (h : ∀ last ∈ out.head?, Before last r) : pushAll out [r] = some (r :: out) := by
  cases out with
  | nil => rfl
  | cons last rest =>
    have hb : last.max < r.min := h last rfl
    simp [pushRegion, SelRegion.overlaps, hb]

private theorem assemble_after {mainSelection i m : Nat} {rs out : List SelRegion}
    (hs : rs.Pairwise Before) (ho : ∀ last ∈ out.head?, ∀ r ∈ rs, Before last r)
    (hi : mainSelection < i) :
    assemble mainSelection i (rs.map fun r ↦ [r]) out m = some (rs.reverse ++ out, m) := by
  induction rs generalizing i out with
  | nil => rfl
  | cons r rs ih =>
    obtain ⟨hr, hs⟩ := List.pairwise_cons.mp hs
    rw [List.map_cons, assemble,
      pushAll_of_before fun last hl ↦ ho last hl r List.mem_cons_self, Option.bind_some,
      if_neg (by omega), ih hs (by simpa using hr) (by omega)]
    simp

private theorem assemble_of_before {mainSelection i m : Nat} {rs out : List SelRegion}
    (hs : rs.Pairwise Before) (ho : ∀ last ∈ out.head?, ∀ r ∈ rs, Before last r)
    (hi : i ≤ mainSelection) (hl : mainSelection < i + rs.length) :
    assemble mainSelection i (rs.map fun r ↦ [r]) out m =
      some ((setMain rs (mainSelection - i) true).reverse ++ out,
        out.length + (mainSelection - i)) := by
  induction rs generalizing i out m with
  | nil =>
    rw [List.length_nil] at hl
    omega
  | cons r rs ih =>
    obtain ⟨hr, hs⟩ := List.pairwise_cons.mp hs
    rw [List.length_cons] at hl
    rw [List.map_cons, assemble,
      pushAll_of_before fun last hl ↦ ho last hl r List.mem_cons_self, Option.bind_some]
    by_cases h : i = mainSelection
    · have hflag : ∀ s ∈ rs, Before { r with main := true } s := hr
      have hrest : assemble mainSelection (mainSelection + 1) (rs.map fun r ↦ [r])
          ({ r with main := true } :: out) out.length =
            some (rs.reverse ++ { r with main := true } :: out, out.length) :=
        assemble_after hs (by simpa using hflag) (Nat.lt_succ_self mainSelection)
      rw [if_pos h, h, Nat.sub_self]
      simp only [hrest, setMain, List.modify_zero_cons, List.reverse_cons, List.append_assoc,
        List.cons_append, List.nil_append, Nat.add_zero]
    · have hsub : mainSelection - i = mainSelection - (i + 1) + 1 := by omega
      rw [if_neg h, ih hs (by simpa using hr) (by omega) (by omega), hsub]
      simp only [setMain, List.modify_succ_cons, List.reverse_cons, List.append_assoc,
        List.cons_append, List.nil_append, List.length_cons]
      congr 2
      omega

/-- Every region mapped on its own. -/
def mapEach (g : SelRegion → SelRegion) (sel : Selection) : Selection :=
  { regions := setMain (sel.regions.map g) sel.mainSelection true
    mainSelection := sel.mainSelection }

/-- Where the regions stay apart nothing is merged. -/
theorem mapRegions_of_before {g : SelRegion → SelRegion} {sel : Selection}
    (hs : (sel.regions.map g).Pairwise Before) (hm : sel.mainSelection < sel.regions.length) :
    (sel.mapRegions fun r ↦ [g r]) = some (sel.mapEach g) := by
  have hmap : (sel.regions.map fun r ↦ [g r]) = (sel.regions.map g).map fun r ↦ [r] := by
    rw [List.map_map]
    rfl
  rw [mapRegions, ofOutputs, hmap, assemble_of_before hs (by simp) (Nat.zero_le _) (by simpa)]
  simp [mapEach]

/-- What does not read the flags does not see them set. -/
theorem map_setMain {β : Type} {f : SelRegion → β} (hf : ∀ r main, f { r with main := main } = f r)
    (regions : List SelRegion) (index : Nat) (main : Bool) :
    (setMain regions index main).map f = regions.map f := by
  induction regions generalizing index with
  | nil => simp [setMain]
  | cons r regions ih =>
    cases index with
    | zero => simp [setMain, hf]
    | succ index => simpa [setMain] using ih index

/-- What does not depend on the main flag is mapped with the regions. -/
theorem map_mapEach {β : Type} {f : SelRegion → β} (hf : ∀ r main, f { r with main := main } = f r)
    (g : SelRegion → SelRegion) (sel : Selection) :
    (sel.mapEach g).regions.map f = sel.regions.map fun r ↦ f (g r) := by
  rw [mapEach, map_setMain hf, List.map_map]
  rfl

/-- Regions mapped to where they stay apart lie within the buffer if each of them does. -/
theorem placed_mapEach {n : Nat} {g : SelRegion → SelRegion} {sel : Selection}
    (hs : (sel.regions.map g).Pairwise Before) (hb : ∀ r ∈ sel.regions, (g r).InBounds n) :
    (sel.mapEach g).Placed n := by
  have hmap := map_mapEach (f := fun r ↦ (r.caret, r.tail)) (fun _ _ ↦ rfl) g sel
  constructor
  · have hpair : ((sel.mapEach g).regions.map fun r ↦ (r.caret, r.tail)).Pairwise
        fun p q ↦ Before (SelRegion.new p.1 p.2) (SelRegion.new q.1 q.2) := by
      rw [List.pairwise_map] at hs
      rw [hmap, List.pairwise_map]
      exact hs
    rw [List.pairwise_map] at hpair
    exact hpair
  · have hall : ∀ p ∈ (sel.mapEach g).regions.map fun r ↦ (r.caret, r.tail),
        (SelRegion.new p.1 p.2).InBounds n := by
      rw [hmap]
      exact List.forall_mem_map.mpr hb
    rw [List.forall_mem_map] at hall
    exact hall

/-- A closure that hands the flag on by returning the main region alone leaves a fresh
list. -/
theorem Valid.fresh {g : SelRegion → List SelRegion} {sel : Selection} (hv : sel.Valid)
    (hn : ∀ r ∈ sel.regions, ∀ s ∈ g r, s.main = true → r.main = true ∧ g r = [s]) :
    Fresh sel.mainSelection 0 (sel.regions.map g) := by
  intro k new hk s hs
  rw [List.getElem?_map, Option.map_eq_some_iff] at hk
  obtain ⟨r, hr, rfl⟩ := hk
  rw [unflagged, Nat.zero_add] at hs
  by_contra hc
  rw [Bool.not_eq_false] at hc
  split at hs
  · obtain ⟨-, hg⟩ := hn r (List.mem_of_getElem? hr) s (List.dropLast_subset _ hs) hc
    simp [hg] at hs
  · next hne => exact hne ((hv.main_iff k r hr).mp (hn r (List.mem_of_getElem? hr) s hs hc).1)

/-- A closure that gives each region of a valid selection one region, in order or a cursor,
leaves a valid selection. -/
theorem Valid.mapRegions {g : SelRegion → SelRegion} {sel sel' : Selection} (hv : sel.Valid)
    (h : sel.mapRegions (fun r ↦ [g r]) = some sel')
    (hn : ∀ r ∈ sel.regions, (g r).main = true → r.main = true)
    (ho : (sel.regions.Pairwise fun r s ↦ (g r).min ≤ (g s).min) ∨
      ∀ r ∈ sel.regions, (g r).caret = (g r).tail) : sel'.Valid := by
  refine valid_of_ofOutputs h (hv.fresh fun r hr s hs hm ↦ ?_)
    (by rw [List.length_map]; exact hv.main_lt) ?_
  · obtain rfl := List.mem_singleton.mp hs
    exact ⟨hn r hr hm, rfl⟩
  · rw [flatten_map_singleton]
    simpa [List.pairwise_map] using ho

/-- A closure that stays in bounds leaves a selection in bounds. -/
theorem inBounds_mapRegions {n : Nat} {g : SelRegion → List SelRegion} {sel sel' : Selection}
    (h : sel.mapRegions g = some sel') (hg : ∀ r ∈ sel.regions, ∀ s ∈ g r, s.InBounds n) :
    ∀ r ∈ sel'.regions, r.InBounds n := by
  refine inBounds_of_ofOutputs h fun s hs ↦ ?_
  simp only [List.mem_flatten, List.mem_map, exists_exists_and_eq_and] at hs
  obtain ⟨r, hr, hs⟩ := hs
  exact hg r hr s hs

/-- Regions mapped in order, within a buffer, make a selection within it. -/
theorem placed_mapRegions {n : Nat} {g : SelRegion → SelRegion} {sel sel' : Selection}
    (h : (sel.mapRegions fun r ↦ [g r]) = some sel')
    (ho : sel.regions.Pairwise fun r s ↦ (g r).min ≤ (g s).min)
    (hb : ∀ r ∈ sel.regions, (g r).InBounds n) : sel'.Placed n := by
  constructor
  · obtain ⟨⟨out, m⟩, ha, rfl⟩ := Option.map_eq_some_iff.mp h
    refine sorted_of_assemble ha ?_
    rwa [flatten_map_singleton, List.pairwise_map]
  · refine inBounds_mapRegions h fun r hr s hs ↦ ?_
    obtain rfl := List.mem_singleton.mp hs
    exact hb r hr

private theorem collect_forall {σ : Type} {f : σ → SelRegion → Option (σ × List SelRegion)}
    {p : SelRegion → Prop} {regions : List SelRegion} {s s' : σ}
    {outputs : List (List SelRegion)} (h : collect f regions s = some (s', outputs))
    (hf : ∀ s s' new, ∀ r ∈ regions, f s r = some (s', new) → ∀ x ∈ new, p x) :
    ∀ x ∈ outputs.flatten, p x := by
  induction regions generalizing s outputs with
  | nil =>
    obtain ⟨-, rfl⟩ := Prod.mk.inj (Option.some.inj h)
    simp
  | cons r regions ih =>
    obtain ⟨⟨s₁, new⟩, hr, h⟩ := Option.bind_eq_some_iff.mp h
    obtain ⟨⟨s₂, rest⟩, hrest, h⟩ := Option.bind_eq_some_iff.mp h
    obtain ⟨rfl, rfl⟩ := Prod.mk.inj (Option.some.inj h)
    rw [List.flatten_cons, List.forall_mem_append]
    exact ⟨hf s s₁ new r (by simp) hr,
      ih hrest fun s s' new r hr ↦ hf s s' new r (List.mem_cons_of_mem _ hr)⟩

/-- The same for a closure with a state. -/
theorem inBounds_mapSelections {σ : Type} {f : σ → SelRegion → Option (σ × List SelRegion)}
    {n : Nat} {s s' : σ} {sel sel' : Selection} (h : sel.mapSelections f s = some (s', sel'))
    (hf : ∀ s s' new, ∀ r ∈ sel.regions, f s r = some (s', new) → ∀ x ∈ new, x.InBounds n) :
    ∀ r ∈ sel'.regions, r.InBounds n := by
  rw [mapSelections_eq] at h
  obtain ⟨⟨s₁, outputs⟩, hc, h⟩ := Option.bind_eq_some_iff.mp h
  obtain ⟨sel₁, ho, h⟩ := Option.map_eq_some_iff.mp h
  obtain ⟨rfl, rfl⟩ := Prod.mk.inj h
  exact inBounds_of_ofOutputs ho (collect_forall hc hf)

/-- What a closure makes of a region: regions in it and in order, and the region itself
alone where the main flag is handed on. -/
structure Divides (r : SelRegion) (out : List SelRegion) : Prop where
  inside : ∀ s ∈ out, r.min ≤ s.min ∧ s.max ≤ r.max
  sorted : out.Pairwise Before
  main : ∀ s ∈ out, s.main = true → r.main = true ∧ out = [s]

/-- Dividing the regions of a valid selection panics exactly when nothing is left of the main
region and those before it, and leaves a valid selection otherwise. -/
theorem Valid.mapRegions_divides {g : SelRegion → List SelRegion} {sel : Selection}
    (hv : sel.Valid) (hg : ∀ r ∈ sel.regions, Divides r (g r)) :
    ((sel.mapRegions g).isSome ↔ ∃ r ∈ sel.regions.take (sel.mainSelection + 1), g r ≠ []) ∧
    ∀ sel', sel.mapRegions g = some sel' → sel'.Valid := by
  have hsorted : (sel.regions.map g).flatten.Pairwise Before := by
    rw [List.pairwise_flatten, List.pairwise_map]
    refine ⟨fun out hout ↦ ?_, hv.sorted.imp_of_mem fun ha hb hab s hs t ht ↦ ?_⟩
    · obtain ⟨r, hr, rfl⟩ := List.mem_map.mp hout
      exact (hg r hr).sorted
    · exact Nat.lt_of_le_of_lt ((hg _ ha).inside s hs).2
        (Nat.lt_of_lt_of_le hab ((hg _ hb).inside t ht).1)
  have hclash : ¬ ClashOn Touch SelRegion.Opposed (sel.regions.map g).flatten :=
    not_clashOn_of_isChain (hsorted.imp not_touch_iff_before.mpr).isChain
  constructor
  · rw [Selection.mapRegions, isSome_ofOutputs_iff (hsorted.imp Before.notBehind),
      and_iff_right hclash, List.length_map, ← List.map_take, Ne, List.flatten_eq_nil_iff]
    simp only [List.mem_map, forall_exists_index, and_imp, forall_apply_eq_imp_iff₂]
    push Not
    exact ⟨fun h ↦ h hv.main_lt, fun h _ ↦ h⟩
  · intro sel' h
    refine valid_of_ofOutputs h (hv.fresh fun r hr ↦ (hg r hr).main)
      (by rw [List.length_map]; exact hv.main_lt) (.inl (hsorted.imp fun h ↦ h.notBehind.1))

end Selection

end Tofu
