import ChartPipeline.Proofs.Inventory
import Mathlib.Data.List.Flatten
import Mathlib.Data.List.Perm.Basic

/-!
# The datasets of a chart

Compiled data hold each dataset that the chart asks for once and under its own name: no dataset is
lost where stages are joined, moved or left out, none is made for a second time where the flow
forks, and the names that are made never meet.

## Key results

- `Chart.nameFor_inj`: names made for charts tell the charts apart
- `Analysis.check_ok`: charts that are found to make sense have different names
- `Compiler.compile_catalog`: the datasets of a chart, and no others
-/

namespace ChartPipeline

/-! ### Names -/

/-- What a text begins with before the last occurrence of a character, and what follows. -/
theorem append_cons_inj_of_notMem {α : Type} {l l' r r' : List α} {a : α} (hr : a ∉ r) (hr' : a ∉ r')
    (h : l ++ a :: r = l' ++ a :: r') : l = l' ∧ r = r' := by
  rcases List.append_eq_append_iff.1 h with ⟨m, rfl, hm⟩ | ⟨m, rfl, hm⟩
  · cases m with
    | nil => simpa using hm
    | cons b m =>
      obtain ⟨rfl, rfl⟩ := List.cons.inj hm
      exact absurd (List.mem_append_right m List.mem_cons_self) hr
  · cases m with
    | nil => simpa using hm.symm
    | cons b m =>
      obtain ⟨rfl, rfl⟩ := List.cons.inj hm
      exact absurd (List.mem_append_right m List.mem_cons_self) hr'

namespace Chart

/-- The texts that names for charts are made from. -/
def madeTexts : List String := ["raw", "main", "column", "row", "facet"]

/-- The texts that names are made from have no underscore. -/
theorem notMem_underscore {text : String} (h : text ∈ madeTexts) : '_' ∉ text.toList := by
  revert text
  decide

variable {c c' : Chart} {text text' : String}

/-- A chart with a name puts it in front, with an underscore behind. -/
theorem toList_nameFor (h : c.name ≠ "") :
    (c.nameFor text).toList = c.name.toList ++ '_' :: text.toList := by
  have hempty : c.header.name.isEmpty = false := by
    rw [Bool.eq_false_iff]
    exact fun hempty => h (String.isEmpty_iff.1 hempty)
  rw [nameFor, ChartHeader.nameFor, hempty]
  simp [name, String.toList_append]

/-- A chart without one leaves the text as it is. -/
theorem nameFor_of_empty (h : c.name = "") : c.nameFor text = text := by
  have hempty : c.header.name.isEmpty = true := String.isEmpty_iff.2 h
  rw [nameFor, ChartHeader.nameFor, hempty, if_pos rfl]

/-- A name made for a chart tells the chart and the text that it is made from. -/
theorem nameFor_inj (ht : text ∈ madeTexts) (ht' : text' ∈ madeTexts)
    (h : c.nameFor text = c'.nameFor text') : c.name = c'.name ∧ text = text' := by
  have hnot := notMem_underscore ht
  have hnot' := notMem_underscore ht'
  -- a name in front is followed by an underscore, and the texts have none
  by_cases hc : c.name = "" <;> by_cases hc' : c'.name = ""
  · rw [nameFor_of_empty hc, nameFor_of_empty hc'] at h
    exact ⟨hc.trans hc'.symm, h⟩
  · rw [nameFor_of_empty hc] at h
    rw [h, toList_nameFor hc'] at hnot
    simp at hnot
  · rw [nameFor_of_empty hc'] at h
    rw [← h, toList_nameFor hc] at hnot'
    simp at hnot'
  · have hlist := congrArg String.toList h
    rw [toList_nameFor hc, toList_nameFor hc'] at hlist
    obtain ⟨hname, htext⟩ := append_cons_inj_of_notMem hnot hnot' hlist
    exact ⟨String.toList_inj.1 hname, String.toList_inj.1 htext⟩

/-- No number is one of the texts. -/
theorem toString_notMem_madeTexts (n : Nat) : toString n ∉ madeTexts := by
  intro h
  -- every text has a character that is no digit
  have hletter : ∀ text ∈ madeTexts, text.toList.all Char.isDigit = false := by decide
  have hdigits : (toString n).toList.all Char.isDigit = true := by
    rw [Nat.toString_eq_ofList_toDigits, String.toList_ofList, List.all_eq_true]
    exact fun ch hch => Nat.isDigit_of_mem_toDigits (by omega) (by omega) hch
  exact Bool.noConfusion ((hletter _ h).symm.trans hdigits)

/-- No name made for a chart is made of a number. -/
theorem nameFor_ne_numbered (ht : text ∈ madeTexts) {word : String} (n : Nat) :
    c.nameFor text ≠ word ++ "_" ++ toString n := by
  intro h
  have hnot := notMem_underscore ht
  have hdigits : '_' ∉ (toString n).toList := by
    intro hmem
    rw [Nat.toString_eq_ofList_toDigits, String.toList_ofList] at hmem
    exact absurd (Nat.isDigit_of_mem_toDigits (by omega) (by omega) hmem) (by decide)
  have hlist := congrArg String.toList h
  simp only [String.toList_append, List.append_assoc] at hlist
  by_cases hc : c.name = ""
  · rw [nameFor_of_empty hc] at hlist
    rw [hlist] at hnot
    simp at hnot
  · rw [toList_nameFor hc] at hlist
    obtain ⟨-, htext⟩ := append_cons_inj_of_notMem hnot hdigits hlist
    exact toString_notMem_madeTexts n (String.toList_inj.1 htext ▸ ht)

end Chart

/-! ### Charts that make sense -/

namespace Analysis

variable {seen seen' : List String}

/-- A name that is not refused is new, and noted. -/
theorem checkName_ok {name : String} (h : checkName name seen = (.ok (), seen')) :
    name ∉ seen ∧ seen' = name :: seen := by
  rw [checkName, Run.bind_ok (Run.get_run seen)] at h
  split at h
  · obtain ⟨_, _, hthrow, -⟩ := Run.bind_eq_ok h
    exact absurd hthrow Run.throw_ne_ok
  · next hseen =>
    obtain ⟨-, rfl⟩ := Prod.mk.inj h
    exact ⟨by simpa using hseen, rfl⟩

/-- The names of charts are added to those that were seen. -/
structure Adds (xs : List (Bool × Chart)) (seen seen' : List String) : Prop where
  nodup : seen.Nodup → seen'.Nodup
  perm : seen'.Perm (xs.map (fun x => x.2.name) ++ seen)

/-- Names of charts that are added after others are added with them. -/
theorem Adds.append {xs ys : List (Bool × Chart)} {seen₁ : List String} (h : Adds xs seen seen₁)
    (h' : Adds ys seen₁ seen') : Adds (xs ++ ys) seen seen' where
  nodup hn := h'.nodup (h.nodup hn)
  perm := by
    refine h'.perm.trans ((h.perm.append_left _).trans ?_)
    rw [List.map_append, ← List.append_assoc]
    exact List.perm_append_comm.append_right _

/-- The order of the charts does not matter. -/
theorem Adds.of_perm {xs ys : List (Bool × Chart)} (h : Adds xs seen seen') (hp : xs.Perm ys) :
    Adds ys seen seen' :=
  ⟨h.nodup, h.perm.trans ((hp.map _).append_right _)⟩

/-- A chart adds its own name. -/
theorem adds_own {chart : Chart} (x : Bool) (h : checkName chart.name seen = (.ok (), seen')) :
    Adds [(x, chart)] seen seen' := by
  obtain ⟨hnot, rfl⟩ := checkName_ok h
  exact ⟨fun hn => List.nodup_cons.2 ⟨hnot, hn⟩, .refl _⟩

mutual

/-- A chart that makes sense adds its name and the names of the charts inside, none of which was
    seen before. -/
theorem check_ok : ∀ (chart : Chart) {inherits : Bool} {seen seen' : List String},
    check chart inherits seen = (.ok (), seen') →
      Adds (chart.inContext (fun inherits c => hasData c.header inherits) inherits) seen seen'
  | .unit h mark encoding stack, inherits, seen, seen', hrun => by
    obtain ⟨_, seen₁, hname, hown⟩ := Run.bind_eq_ok hrun
    rw [Run.lift_run] at hown
    obtain ⟨-, rfl⟩ := Prod.mk.inj hown
    exact adds_own inherits hname
  | .layer h children, inherits, seen, seen', hrun => by
    obtain ⟨_, seen₁, hname, hrun⟩ := Run.bind_eq_ok hrun
    obtain ⟨_, -, hall⟩ := Run.lift_bind_ok hrun
    rw [Chart.inContext]
    have hown := @adds_own _ _ (.layer h children) inherits hname
    exact (hown.append (checkAll_ok children hall)).of_perm List.perm_append_comm
  | .facet h mapping child, inherits, seen, seen', hrun => by
    obtain ⟨_, seen₁, hname, hrun⟩ := Run.bind_eq_ok hrun
    obtain ⟨_, -, hchild⟩ := Run.lift_bind_ok hrun
    rw [Chart.inContext]
    have hown := @adds_own _ _ (.facet h mapping child) inherits hname
    exact (hown.append (check_ok child hchild)).of_perm List.perm_append_comm

/-- Charts that make sense one after the other add the names of all of them. -/
theorem checkAll_ok : ∀ (charts : List Chart) {inherits : Bool} {seen seen' : List String},
    checkAll charts inherits seen = (.ok (), seen') →
      Adds (Chart.allInContext (fun inherits c => hasData c.header inherits) inherits charts) seen
        seen'
  | [], inherits, seen, seen', hrun => by
    obtain ⟨-, rfl⟩ := Prod.mk.inj hrun
    exact ⟨id, .refl _⟩
  | chart :: rest, inherits, seen, seen', hrun => by
    obtain ⟨_, seen₁, hchart, hrest⟩ := Run.bind_eq_ok hrun
    exact (check_ok chart hchart).append (checkAll_ok rest hrest)

end

/-- The charts of a tree that was analyzed have different names. -/
theorem nodup_names_of_analyzeAfter {chart : Chart} (h : (analyzeAfter seen chart).1 = .ok ()) :
    (chart.charts.map Chart.name).Nodup := by
  cases hrun : (do startOver; check chart false : Check Unit) seen with
  | mk result seen' =>
    obtain rfl : result = .ok () := by
      rw [← h]
      exact (congrArg Prod.fst hrun).symm
    obtain ⟨_, seen₀, hstart, hcheck⟩ := Run.bind_eq_ok hrun
    obtain ⟨-, rfl⟩ := Prod.mk.inj hstart
    have hadds := check_ok chart hcheck
    have hn := hadds.perm.nodup_iff.1 (hadds.nodup List.nodup_nil)
    rw [List.append_nil] at hn
    rw [Chart.charts, List.map_map]
    exact hn

end Analysis

/-! ### The names of all datasets -/

namespace Chart

variable {chart : Chart}

/-- The names of the datasets that charts ask for, and of their facets. -/
def wantedNames (chart : Chart) : List String :=
  (chart.supplied.flatMap outputNames ++ chart.charts.flatMap headerNames) ++
    chart.charts.flatMap facetNames

/-- The names of the datasets that a chart may ask for, and of its facet. -/
def ownNames (c : Chart) : List String := (c.outputNames ++ c.headerNames) ++ c.facetNames

/-- The names made for a chart come from different texts. -/
theorem exists_texts (c : Chart) : ∃ texts : List String, texts.Sublist madeTexts ∧
    c.ownNames = texts.map c.nameFor := by
  have hraw : ∃ l : List String, l.Sublist ["raw"] ∧
      (if c.requests .raw then [c.nameFor "raw"] else []) = l.map c.nameFor := by
    cases c.requests .raw
    · exact ⟨[], by simp, rfl⟩
    · exact ⟨["raw"], by simp, rfl⟩
  have hmain : ∃ l : List String, l.Sublist ["main"] ∧
      (if c.isUnit || c.requests .main then [c.nameFor "main"] else []) = l.map c.nameFor := by
    cases c.isUnit || c.requests .main
    · exact ⟨[], by simp, rfl⟩
    · exact ⟨["main"], by simp, rfl⟩
  have hheaders : ∃ l : List String, l.Sublist ["column", "row"] ∧ c.headerNames = l.map c.nameFor := by
    refine ⟨([Channel.column, .row].filter c.declares).map Channel.name, ?_, ?_⟩
    · exact List.filter_sublist.map Channel.name
    · rw [headerNames, List.map_map]
      rfl
  have hfacet : ∃ l : List String, l.Sublist ["facet"] ∧ c.facetNames = l.map c.nameFor := by
    cases c
    · exact ⟨[], by simp, rfl⟩
    · exact ⟨[], by simp, rfl⟩
    · exact ⟨["facet"], by simp, rfl⟩
  obtain ⟨raw, hraw, hraw'⟩ := hraw
  obtain ⟨main, hmain, hmain'⟩ := hmain
  obtain ⟨headers, hheaders, hheaders'⟩ := hheaders
  obtain ⟨facet, hfacet, hfacet'⟩ := hfacet
  refine ⟨((raw ++ main) ++ headers) ++ facet, ?_, ?_⟩
  · exact ((hraw.append hmain).append hheaders).append hfacet
  · rw [ownNames, outputNames, hraw', hmain', hheaders', hfacet']
    simp

/-- A name of a chart is made for it from one of the texts. -/
theorem exists_text {c : Chart} {made : String} (h : made ∈ c.ownNames) :
    ∃ text ∈ madeTexts, made = c.nameFor text := by
  obtain ⟨texts, hsub, heq⟩ := exists_texts c
  rw [heq] at h
  obtain ⟨text, ht, rfl⟩ := List.mem_map.1 h
  exact ⟨text, hsub.subset ht, rfl⟩

/-- The names of one chart are different, as no two come from one text. -/
theorem nodup_ownNames (c : Chart) : c.ownNames.Nodup := by
  have hmade : madeTexts.Nodup := by decide
  obtain ⟨texts, hsub, heq⟩ := exists_texts c
  rw [heq]
  refine (hmade.sublist hsub).map_on fun text ht text' ht' h => ?_
  exact (nameFor_inj (hsub.subset ht) (hsub.subset ht') h).2

/-- The names of differently named charts are different. -/
theorem disjoint_ownNames {c c' : Chart} (hne : c.name ≠ c'.name) :
    c.ownNames.Disjoint c'.ownNames := by
  intro made hmade hmade'
  obtain ⟨text, ht, rfl⟩ := exists_text hmade
  obtain ⟨text', ht', h⟩ := exists_text hmade'
  exact hne (nameFor_inj ht ht' h).1

/-- Charts with different names ask for different names. -/
theorem nodup_wantedNames (hn : (chart.charts.map name).Nodup) : chart.wantedNames.Nodup := by
  have hown : (chart.charts.flatMap ownNames).Nodup := by
    rw [List.nodup_flatMap]
    exact ⟨fun c _ => nodup_ownNames c, (List.pairwise_map.1 hn).imp disjoint_ownNames⟩
  -- charts without data ask for less than their own names
  have hsupplied : chart.supplied.Sublist chart.charts := List.filter_sublist.map Prod.snd
  have hall : (chart.charts.flatMap outputNames ++ chart.charts.flatMap headerNames ++
      chart.charts.flatMap facetNames).Nodup := by
    refine (List.Perm.nodup_iff ?_).2 hown
    exact ((List.flatMap_append_perm _ _ _).append_right _).trans (List.flatMap_append_perm _ _ _)
  refine hall.sublist ?_
  exact ((hsupplied.flatMap _).append_right _).append_right _

/-- The names that charts ask for are made for them. -/
theorem exists_nameFor {made : String} (h : made ∈ chart.wantedNames) :
    ∃ c ∈ chart.charts, ∃ text ∈ madeTexts, made = c.nameFor text := by
  have hown : ∃ c ∈ chart.charts, made ∈ c.ownNames := by
    simp only [wantedNames, ownNames, List.mem_append, List.mem_flatMap] at h ⊢
    rcases h with (⟨c, hc, hmade⟩ | ⟨c, hc, hmade⟩) | ⟨c, hc, hmade⟩
    · exact ⟨c, (List.filter_sublist.map Prod.snd).subset hc, .inl (.inl hmade)⟩
    · exact ⟨c, hc, .inl (.inr hmade)⟩
    · exact ⟨c, hc, .inr hmade⟩
  obtain ⟨c, hc, hmade⟩ := hown
  exact ⟨c, hc, exists_text hmade⟩

/-- No name that is asked for is made of a number. -/
theorem ne_numbered_of_wanted {made : String} (h : made ∈ chart.wantedNames) (n : Nat) :
    made ≠ Assembly.dataName n ∧ made ≠ Assembly.numberedSource n := by
  obtain ⟨c, -, text, ht, rfl⟩ := exists_nameFor h
  exact ⟨@nameFor_ne_numbered c text ht "data" n, @nameFor_ne_numbered c text ht "source" n⟩

/-- No named data have a name that is made: of a number, or for a chart. -/
def NamesApart (chart : Chart) : Prop :=
  ∀ name, DataSource.named name ∈ chart.declarations →
    (∀ n, name ≠ Assembly.dataName n ∧ name ≠ Assembly.numberedSource n) ∧
      ∀ c ∈ chart.charts, ∀ text ∈ madeTexts, name ≠ c.nameFor text

end Chart

namespace Assembly

variable {f : Forest Stage} {n : Nat}

/-- A source is loaded under its own name, or under one made of a number not used so far. -/
theorem own_or_numbered_of_mem {name : String} (h : name ∈ (sourceNames n f).map Prod.snd) :
    name ∈ f.rootSources.filterMap Source.datasetName? ∨
      ∃ m, n ≤ m ∧ name = numberedSource m := by
  induction f generalizing n with
  | nil => exact absurd h (by simp [sourceNames])
  | node i a cs rest _ ih =>
    cases a with
    | source s =>
      rw [Forest.rootSources]
      -- named data keep their name; other data are given the next number
      cases hs : s.datasetName? with
      | some own =>
        rw [sourceNames, hs, List.map_cons] at h
        rw [List.filterMap_cons_some hs]
        rcases List.mem_cons.1 h with rfl | h
        · exact .inl List.mem_cons_self
        · exact (ih h).imp_left (List.mem_cons_of_mem _)
      | none =>
        rw [sourceNames, hs, List.map_cons] at h
        rw [List.filterMap_cons_none hs]
        rcases List.mem_cons.1 h with rfl | h
        · exact .inr ⟨n, Nat.le_refl n, rfl⟩
        · refine (ih h).imp_right fun hnumbered => ?_
          obtain ⟨m, hle, heq⟩ := hnumbered
          exact ⟨m, Nat.le_of_succ_le hle, heq⟩
    | _ => exact ih h

/-- Sources with different names of their own, none of them made of a number, are loaded into
    records with different names. -/
theorem nodup_sourceNames (hown : (f.rootSources.filterMap Source.datasetName?).Nodup)
    (hun : ∀ name ∈ f.rootSources.filterMap Source.datasetName?, ∀ m, name ≠ numberedSource m) :
    ((sourceNames n f).map Prod.snd).Nodup := by
  induction f generalizing n with
  | nil => exact List.nodup_nil
  | node i a cs rest _ ih =>
    cases a with
    | source s =>
      rw [Forest.rootSources] at hown hun
      cases hs : s.datasetName? with
      | some name =>
        rw [List.filterMap_cons_some hs] at hown hun
        obtain ⟨hnot, hown⟩ := List.nodup_cons.1 hown
        rw [sourceNames, hs, List.map_cons]
        refine List.nodup_cons.2 ⟨fun hin => ?_, ih hown fun m hm => hun m (.tail _ hm)⟩
        rcases own_or_numbered_of_mem hin with hin | ⟨m, -, heq⟩
        · exact hnot hin
        · exact hun name List.mem_cons_self m heq
      | none =>
        rw [List.filterMap_cons_none hs] at hown hun
        rw [sourceNames, hs, List.map_cons]
        refine List.nodup_cons.2 ⟨fun hin => ?_, ih hown hun⟩
        -- the numbers that follow are greater
        rcases own_or_numbered_of_mem hin with hin | ⟨m, hle, heq⟩
        · exact hun _ hin n rfl
        · have := numberedSource_inj heq
          omega
    | _ => exact ih hown hun

end Assembly

/-! ### Compiling -/

namespace Item

/-- The source that is asked for. -/
def source? : Item → Option Source
  | source s => some s
  | _ => none

/-- The name of the record that is asked for. -/
def recordName? : Item → Option String
  | record name => some name
  | _ => none

/-- The name of the facet that is asked for. -/
def facetName? : Item → Option String
  | facet name => some name
  | _ => none

end Item

/-- The datasets of a chart, told apart by what they are there for. -/
structure CompiledData.Catalog (data : CompiledData) (chart : Chart) (sources : List Source)
    (loaded named counted : List DatasetRecord) : Prop where
  /-- There are records that load data, records that charts ask for, and numbered ones. -/
  split : data.records.Perm (loaded ++ (named ++ counted))
  /-- Data are loaded outside facets, once for every hash of a declaration. -/
  loaded_subset : loaded ⊆ data.datasets
  loads : List.Forall₂ Source.Loads sources loaded
  hashes : (sources.map Source.hash).Nodup
  declared : ∀ s ∈ sources, ∃ declaration ∈ chart.declarations, s = Source.ofData declaration
  noted : ∀ declaration ∈ chart.declarations,
    Source.hashOf declaration ∈ sources.map Source.hash
  /-- Charts with data ask for outputs that others read, and facets for their dimensions. -/
  named_perm : (named.map DatasetRecord.name).Perm
    (chart.supplied.flatMap Chart.outputNames ++ chart.charts.flatMap Chart.headerNames)
  facets_perm : (data.facets.map FacetData.name).Perm (chart.charts.flatMap Chart.facetNames)
  /-- Numbered records do something. -/
  counted_eq : counted.map DatasetRecord.name = (List.range counted.length).map Assembly.dataName
  steps : ∀ r ∈ counted, r.steps ≠ []
  /-- Only the records that load data do not go on from another one. -/
  derived : ∀ r ∈ named ++ counted, r.source.isSome = true

/-- What some items hold is what is held after the others are sorted out. -/
theorem flatMap_ite {α β : Type} (p : α → Bool) (g : α → List β) (l : List α) :
    l.flatMap (fun x => if p x then g x else []) = (l.filter p).flatMap g := by
  induction l with
  | nil => rfl
  | cons x l ih =>
    rw [List.flatMap_cons, ih, List.filter_cons]
    cases p x <;> simp

/-- Data that were made of what charts ask for are those datasets and no others. -/
theorem CompiledData.Made.catalog {data : CompiledData} {f : Forest Stage} {chart : Chart}
    {loaded named counted : List DatasetRecord} {sources : List Source}
    (h : data.Made f loaded named counted)
    (hitems : f.items.Perm (sources.map Item.source ++ chart.parts.flatMap Chart.asks))
    (hhashes : (sources.map Source.hash).Nodup)
    (hdeclared : ∀ s ∈ sources, ∃ declaration ∈ chart.declarations, s = Source.ofData declaration)
    (hnoted : ∀ declaration ∈ chart.declarations,
      Source.hashOf declaration ∈ sources.map Source.hash) :
    data.Catalog chart f.rootSources loaded named counted := by
  -- what was made is what was asked for, and so kind by kind
  have hasked := h.asked.trans hitems
  have hsources : f.rootSources.Perm sources := by
    -- charts ask for records and facets, so every source asked for is one of those listed
    have hnone : (chart.parts.flatMap Chart.asks).filterMap Item.source? = [] := by
      rw [List.filterMap_flatMap, List.flatMap_eq_nil_iff]
      intro x _
      simp [Chart.asks, Item.source?]
    have := hasked.filterMap Item.source?
    simpa [List.filterMap_map, Function.comp_def, hnone, Item.source?, DatasetRecord.item,
      FacetData.item] using this
  refine ⟨h.split, h.loaded_subset, h.loads, ?_, ?_, ?_, ?_, ?_, h.counted_eq, h.steps,
    h.derived⟩
  · exact (hsources.map Source.hash).nodup_iff.2 hhashes
  · exact fun s hs => hdeclared s (hsources.mem_iff.1 hs)
  · exact fun declaration hd => (hsources.map Source.hash).mem_iff.2 (hnoted declaration hd)
  · have hrecords := hasked.filterMap Item.recordName?
    simp only [List.filterMap_map, List.filterMap_flatMap, List.filterMap_append, Function.comp_def,
      Chart.asks, Item.recordName?, DatasetRecord.item, FacetData.item, List.filterMap_some,
      List.filterMap_none, List.nil_append, List.append_nil, List.filterMap_eq_map'] at hrecords
    rw [Chart.supplied, Chart.charts, List.flatMap_map, List.flatMap_map, ← flatMap_ite]
    exact hrecords.trans (List.flatMap_append_perm _ _ _).symm
  · have hfacets := hasked.filterMap Item.facetName?
    rw [Chart.charts, List.flatMap_map]
    simpa [List.filterMap_map, List.filterMap_flatMap, Function.comp_def, Chart.asks,
      Item.facetName?, DatasetRecord.item, FacetData.item] using hfacets

namespace CompiledData.Catalog

variable {data : CompiledData} {chart : Chart} {sources : List Source}
  {loaded named counted : List DatasetRecord}

/-- Sources with names of their own have different ones. -/
theorem nodup_datasetNames (h : data.Catalog chart sources loaded named counted) :
    (sources.filterMap Source.datasetName?).Nodup := by
  -- one hash for every source, and the hash is made from the data
  have hdata : sources.Pairwise fun s s' => s.data ≠ s'.data := by
    refine (List.pairwise_map.1 h.hashes).imp_of_mem fun {s s'} hs hs' hne heq => hne ?_
    obtain ⟨d, -, rfl⟩ := h.declared s hs
    obtain ⟨d', -, rfl⟩ := h.declared s' hs'
    exact congrArg Source.hashOf heq
  refine hdata.filterMap _ fun s s' hne name hname name' hname' heq => hne ?_
  have hnamed {s : Source} {name : String} (h : s.datasetName? = some name) :
      s.data = .named name := by
    unfold Source.datasetName? at h
    split at h
    · next hd => rw [hd, Option.some.inj h]
    · exact absurd h (by simp)
  rw [hnamed hname, hnamed hname', heq]

/-- A source's own name is that of named data that are declared. -/
theorem named_of_mem (h : data.Catalog chart sources loaded named counted) {name : String}
    (hname : name ∈ sources.filterMap Source.datasetName?) :
    DataSource.named name ∈ chart.declarations := by
  obtain ⟨s, hs, hname⟩ := List.mem_filterMap.1 hname
  obtain ⟨d, hd, rfl⟩ := h.declared s hs
  unfold Source.datasetName? at hname
  split at hname
  · next heq =>
    obtain rfl := Option.some.inj hname
    rwa [← show d = .named _ from heq]
  · exact absurd hname (by simp)

/-- The names of all datasets: those of sources, those that charts ask for and numbered ones. -/
theorem perm_names (h : data.Catalog chart sources loaded named counted) :
    (data.records.map DatasetRecord.name ++ data.facets.map FacetData.name).Perm
      (loaded.map DatasetRecord.name ++
        (chart.wantedNames ++ counted.map DatasetRecord.name)) := by
  refine List.perm_iff_count.2 fun name => ?_
  have hsplit := (h.split.map DatasetRecord.name).count_eq name
  have hnamed := h.named_perm.count_eq name
  have hfacets := h.facets_perm.count_eq name
  simp only [Chart.wantedNames, List.map_append, List.count_append] at hsplit hnamed hfacets ⊢
  omega

/-- The records of steps in between have numbers for names. -/
theorem counted_of_mem (h : data.Catalog chart sources loaded named counted) {name : String}
    (hname : name ∈ counted.map DatasetRecord.name) : ∃ n, name = Assembly.dataName n := by
  rw [h.counted_eq] at hname
  obtain ⟨n, -, rfl⟩ := List.mem_map.1 hname
  exact ⟨n, rfl⟩

/-- No two datasets have one name. -/
theorem nodup_names {f : Forest Stage} (h : data.Catalog chart f.rootSources loaded named counted)
    (hloaded : loaded.map DatasetRecord.name = (Assembly.sourceNames 0 f).map Prod.snd)
    (hn : (chart.charts.map Chart.name).Nodup) (hapart : chart.NamesApart) :
    (data.records.map DatasetRecord.name ++ data.facets.map FacetData.name).Nodup := by
  have hnodup : (loaded.map DatasetRecord.name).Nodup := hloaded ▸ Assembly.nodup_sourceNames
    h.nodup_datasetNames fun name hname n => ((hapart name (h.named_of_mem hname)).1 n).2
  have hmem {name : String} (hname : name ∈ loaded.map DatasetRecord.name) :=
    Assembly.own_or_numbered_of_mem (hloaded ▸ hname)
  rw [h.perm_names.nodup_iff, List.nodup_append, List.nodup_append]
  refine ⟨hnodup, ⟨Chart.nodup_wantedNames hn, ?_, ?_⟩, ?_⟩
  · rw [h.counted_eq]
    exact List.nodup_range.map fun _ _ => Assembly.dataName_inj
  · intro made hmade name hname heq
    obtain ⟨n, rfl⟩ := h.counted_of_mem hname
    exact (Chart.ne_numbered_of_wanted hmade n).1 heq
  · intro name hname made hmade heq
    subst heq
    -- a source's own name is apart from all that are made, and no number is used for two kinds
    rcases List.mem_append.1 hmade with hmade | hmade
    · rcases hmem hname with hown | ⟨m, -, rfl⟩
      · obtain ⟨c, hc, text, ht, rfl⟩ := Chart.exists_nameFor hmade
        exact (hapart _ (h.named_of_mem hown)).2 c hc text ht rfl
      · exact (Chart.ne_numbered_of_wanted hmade m).2 rfl
    · obtain ⟨n, rfl⟩ := h.counted_of_mem hmade
      rcases hmem hname with hown | ⟨m, -, heq⟩
      · exact ((hapart _ (h.named_of_mem hown)).1 n).1 rfl
      · exact Assembly.dataName_ne_numberedSource n m heq

end CompiledData.Catalog

namespace Compiler

variable {compiler : Compiler} {chart : Chart} {data : CompiledData}

/-- Data that were compiled come from a flow that was built, optimized and assembled, after the
    chart was analyzed if the options ask for it. -/
theorem compile_inv (h : (compiler.compile chart).1 = .ok data) :
    (compiler.options.analyze = true →
      (Analysis.analyzeAfter compiler.seen chart).1 = .ok ()) ∧
    ∃ built flow earlier st flow', Building.ofChart chart = .ok built ∧
      compiler.options.optimizeFlow built.flow = (.ok (), flow) ∧
      flow.assembleAfter earlier = (.ok data, st, flow') := by
  unfold compile at h
  split at h
  · exact absurd h (by simp)
  · next flow compiler' hbuild =>
    obtain ⟨⟨built, hbuilt, rfl⟩, hoptions⟩ := buildFlow_ok hbuild
    split at h
    · exact absurd h (by simp)
    · next flow hrun =>
      refine ⟨fun ha => ?_, built, flow, compiler'.assembly, _, _, hbuilt, hoptions ▸ hrun,
        Prod.ext h rfl⟩
      -- a chart that the analysis refuses would not have been built
      rw [buildFlow, if_pos ha] at hbuild
      have hbind := congrArg Prod.fst hbuild
      cases hr : (Analysis.analyzeAfter compiler.seen chart).1 with
      | error e => simp [hr, Except.bind] at hbind
      | ok => rfl

/-- The datasets of a chart that was analyzed: no two have one name, and they are those that the
    chart asks for, one for every source of data and records of steps in between. -/
theorem compile_catalog (ha : compiler.options.analyze = true)
    (h : (compiler.compile chart).1 = .ok data) (hapart : chart.NamesApart) :
    (data.records.map DatasetRecord.name ++ data.facets.map FacetData.name).Nodup ∧
      ∃ sources loaded named counted, data.Catalog chart sources loaded named counted := by
  obtain ⟨hanalyzed, built, flow, earlier, st, flow', hbuilt, hrun, hassemble⟩ := compile_inv h
  obtain ⟨loaded, named, counted, hmade⟩ := Flow.assembleAfter_made hassemble
  obtain ⟨sources, hwants, hhashes, hdeclared, hnoted⟩ := Building.ofChart_wants hbuilt
  have hcatalog := hmade.catalog ((optimizeFlow_items hbuilt hrun).trans hwants) hhashes hdeclared
    hnoted
  exact ⟨hcatalog.nodup_names hmade.loaded_eq
    (Analysis.nodup_names_of_analyzeAfter (hanalyzed ha)) hapart, _, _, _, _, hcatalog⟩

/-- A layer of two charts that declare the same data: a unit that sorts out rows, whose raw output
    is read, and a facet in rows. -/
def sharedRecords : Chart :=
  .layer { name := "all" }
    [.unit
        { name := "points", data := some (.named "records"), requested := [.raw],
          transforms := [.filter (.expression "datum.x > 0")] } .point ∅ none,
      .facet { name := "grid", data := some (.named "records") }
        { row := some (.named "k" .nominal) } (.unit { name := "bars" } .bar ∅ none)]

/-- The data declared twice are loaded once, and only the layer, which has no data, has no
    output. -/
theorem compile_catalog_sharedRecords : ∃ data,
    (({} : Compiler).compile sharedRecords).1 = .ok data ∧ sharedRecords.NamesApart ∧
      sharedRecords.supplied.flatMap Chart.outputNames =
        ["points_raw", "points_main", "bars_main"] ∧
      (data.records.map DatasetRecord.name ++ data.facets.map FacetData.name).Nodup ∧
      ∃ sources loaded named counted,
        data.Catalog sharedRecords sources loaded named counted := by
  -- only one name of data is declared, and no name that is made begins with its first letter
  have hapart : sharedRecords.NamesApart := by
    have hdeclared : sharedRecords.declarations = [.named "records", .named "records"] := rfl
    have hnames : ∀ c ∈ sharedRecords.charts, ∀ text ∈ Chart.madeTexts,
        "records" ≠ c.nameFor text := by decide
    intro name hname
    obtain rfl : name = "records" := by simpa [hdeclared] using hname
    refine ⟨fun n => ⟨fun h => ?_, fun h => ?_⟩, hnames⟩
    · exact absurd (congrArg (·.toList.head?) h) (by simp [Assembly.dataName, String.toList_append])
    · exact absurd (congrArg (·.toList.head?) h)
        (by simp [Assembly.numberedSource, String.toList_append])
  have hok : (({} : Compiler).compile sharedRecords).1.isOk = true := by decide +kernel
  cases h : (({} : Compiler).compile sharedRecords).1 with
  | error e => rw [h] at hok; exact absurd hok (by simp [Except.isOk, Except.toBool])
  | ok data => exact ⟨data, rfl, hapart, by decide, compile_catalog rfl h hapart⟩

end Compiler

end ChartPipeline
