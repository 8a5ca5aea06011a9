import ChartPipeline.Proofs.Digests
import ChartPipeline.Proofs.Distinct
import ChartPipeline.Proofs.Pipelines
import ChartPipeline.Proofs.ReadValues
import ChartPipeline.Proofs.SideBySide

/-!
# Who shares a source

A flow has one source for each hash of a declaration of data.  Where the hash tells texts apart,
it tells declarations apart, since their floats are finite: two charts read one source exactly if
the data that they draw on are declared alike.

## Key results

- `DataSource.hashOf_eq_iff`: declarations have one hash exactly if they are equal
- `Building.exists_reads`: a chart reads from the source of the data that it draws on
- `Source.shared_iff`: charts share a source exactly if they draw on equal declarations
-/

namespace ChartPipeline

namespace Forest

variable {α : Type} {f : Forest α} {v : Place α} {e : Nat × α}

/-! ### The root above a place -/

/-- The root of the tree of a place is the first node on its route. -/
theorem rootOf_of_route (hn : f.walk.Nodup) (hv : v ∈ f.places [])
    (h : v.route.head? = some e) : f.rootOf v.id = e.1 := by
  rw [rootOf, ancestors_of_mem_places hn hv, List.getLastD_eq_getLast?, List.getLast?_reverse]
  rw [Place.route] at h
  cases habove : v.above with
  | nil =>
    rw [habove] at h
    obtain rfl := Option.some.inj h
    rfl
  | cons x rest =>
    rw [habove] at h
    obtain rfl := Option.some.inj h
    rfl

/-- The first node on the route of a place is a root. -/
theorem mem_heads_of_route (hv : v ∈ f.places []) (h : v.route.head? = some e) : e ∈ f.heads := by
  -- tree by tree: the way to a place below a root begins there
  induction f generalizing v with
  | nil => exact absurd hv (by simp)
  | node i a cs rest _ ihr =>
    rw [places, List.mem_cons, List.mem_append, mem_places_concat] at hv
    rw [heads]
    rcases hv with rfl | ⟨u, -, rfl⟩ | hv
    · obtain rfl := Option.some.inj h
      exact List.mem_cons_self
    · obtain rfl := Option.some.inj h
      exact List.mem_cons_self
    · exact List.mem_cons_of_mem _ (ihr hv h)

end Forest

/-! ### Data that charts draw on -/

namespace Chart

/-- What a chart draws on is its own, or comes from around it. -/
theorem data_of_drawn {outer : Option (DataSource × List Stage)} {chart : Chart}
    {data : DataSource} {stages : List Stage} (h : chart.drawn outer = some (data, stages)) :
    chart.header.data = some data ∨ ∃ before, outer = some (data, before) := by
  cases hd : chart.header.data with
  | some own =>
    rw [drawn_own hd] at h
    cases h
    exact .inl rfl
  | none =>
    rw [drawn_outer hd] at h
    obtain ⟨⟨d, before⟩, hout, heq⟩ := Option.map_eq_some_iff.1 h
    cases heq
    exact .inr ⟨before, hout⟩

/-- So is what it hands on. -/
theorem data_of_handsOn {outer : Option (DataSource × List Stage)} {chart : Chart}
    {data : DataSource} {stages : List Stage} (h : chart.handsOn outer = some (data, stages)) :
    chart.header.data = some data ∨ ∃ before, outer = some (data, before) := by
  obtain ⟨⟨d, before⟩, hdrawn, heq⟩ := Option.map_eq_some_iff.1 h
  cases heq
  exact data_of_drawn hdrawn

mutual

/-- The charts of a tree are the same in every context. -/
theorem map_snd_inContext {σ τ : Type} (inside : σ → Chart → σ) (inside' : τ → Chart → τ) :
    (chart : Chart) → ∀ outer outer', (chart.inContext inside outer).map Prod.snd =
      (chart.inContext inside' outer').map Prod.snd
  | .unit .., _, _ => rfl
  | .layer _ children, outer, outer' => by
    rw [inContext, inContext, List.map_append, List.map_append,
      map_snd_allInContext inside inside' children _ (inside' outer' _)]
    rfl
  | .facet _ _ child, outer, outer' => by
    rw [inContext, inContext, List.map_append, List.map_append,
      map_snd_inContext inside inside' child _ (inside' outer' _)]
    rfl

/-- So are those of several trees. -/
theorem map_snd_allInContext {σ τ : Type} (inside : σ → Chart → σ) (inside' : τ → Chart → τ) :
    (charts : List Chart) → ∀ outer outer', (allInContext inside outer charts).map Prod.snd =
      (allInContext inside' outer' charts).map Prod.snd
  | [], _, _ => rfl
  | chart :: rest, outer, outer' => by
    rw [allInContext, allInContext, List.map_append, List.map_append,
      map_snd_inContext inside inside' chart outer outer',
      map_snd_allInContext inside inside' rest outer outer']

end

/-- Data are declared where a chart in the tree has them. -/
theorem mem_declarations_iff {σ : Type} (inside : σ → Chart → σ) (outer : σ) {chart : Chart}
    {data : DataSource} : data ∈ chart.declarations ↔
      ∃ x ∈ chart.inContext inside outer, x.2.header.data = some data := by
  rw [declarations, List.mem_filterMap, charts, parts, map_snd_inContext _ inside chart _ outer]
  simp only [List.mem_map, exists_exists_and_eq_and]

/-- The floats of declared data are finite where all are. -/
theorem DataFinite.of_mem {chart : Chart} (hf : chart.DataFinite) {data : DataSource}
    (h : data ∈ chart.declarations) : data.Finite := by
  obtain ⟨x, hx, hd⟩ := (mem_declarations_iff (fun _ _ => ()) ()).1 h
  exact hf _ _ _ x hx data hd

/-- The data that charts draw on are declared at one of them, or around them. -/
def DrawsOn (outer : Option (DataSource × List Stage))
    (xs : List (Option (DataSource × List Stage) × Chart)) : Prop :=
  ∀ x ∈ xs, ∀ {data stages}, x.2.drawn x.1 = some (data, stages) →
    (∃ y ∈ xs, y.2.header.data = some data) ∨ ∃ before, outer = some (data, before)

/-- Charts beside each other and inside each other draw on data in this way. -/
theorem drawsOn_compositional : Compositional handsOn DrawsOn where
  nil outer x hx := absurd hx (by simp)
  append hx hy := by
    intro x hmem data stages h
    rcases List.mem_append.1 hmem with hmem | hmem
    · exact (hx x hmem h).imp (fun ⟨y, hy, hd⟩ => ⟨y, List.mem_append_left _ hy, hd⟩) id
    · exact (hy x hmem h).imp (fun ⟨y, hy, hd⟩ => ⟨y, List.mem_append_right _ hy, hd⟩) id
  inside {outer chart xs} h := by
    -- charts inside go on with what the chart around them hands on
    intro x hmem data stages hdrawn
    rcases List.mem_append.1 hmem with hmem | hmem
    · rcases h x hmem hdrawn with ⟨y, hy, hd⟩ | ⟨before, hbefore⟩
      · exact .inl ⟨y, List.mem_append_left _ hy, hd⟩
      · exact (data_of_handsOn hbefore).imp (fun hd => ⟨(outer, chart), by simp, hd⟩) id
    · obtain rfl := List.mem_singleton.1 hmem
      exact (data_of_drawn hdrawn).imp (fun hd => ⟨(outer, chart), by simp, hd⟩) id

/-- The data that the charts of a tree draw on, their own or those around them, in the order in
    which the charts are built. -/
def drawnData (chart : Chart) : List (Option DataSource) :=
  (chart.inContext handsOn none).map fun x => (x.2.drawn x.1).map Prod.fst

/-- Data at some number are those of a chart at that number. -/
theorem exists_of_drawnData {chart : Chart} {k : Nat} {data : DataSource}
    (h : chart.drawnData[k]? = some (some data)) : ∃ x stages,
      (chart.inContext handsOn none)[k]? = some x ∧ x.2.drawn x.1 = some (data, stages) := by
  rw [drawnData, List.getElem?_map] at h
  obtain ⟨x, hx, h⟩ := Option.map_eq_some_iff.1 h
  obtain ⟨⟨data, stages⟩, hdrawn, rfl⟩ := Option.map_eq_some_iff.1 h
  exact ⟨x, stages, hx, hdrawn⟩

/-- The data that a chart in a tree draws on are declared in the tree. -/
theorem mem_declarations_of_drawnData {chart : Chart} {k : Nat} {data : DataSource}
    (h : chart.drawnData[k]? = some (some data)) : data ∈ chart.declarations := by
  obtain ⟨x, stages, hx, hdrawn⟩ := exists_of_drawnData h
  rw [mem_declarations_iff handsOn none]
  have := drawsOn_compositional.inContext chart none x (List.mem_of_getElem? hx) hdrawn
  exact this.resolve_right nofun

/-- The texts of the declarations in a chart do not collide. -/
def TextsApart (chart : Chart) : Prop :=
  ∀ data ∈ chart.declarations, ∀ data' ∈ chart.declarations,
    Sha256.Apart data.toJson.compact data'.toJson.compact

end Chart

/-! ### Sources -/

/-- Declarations with finite floats that do not collide have one hash exactly if they are equal. -/
theorem DataSource.hashOf_eq_iff {data data' : DataSource} (hd : data.Finite) (hd' : data'.Finite)
    (hapart : Sha256.Apart data.toJson.compact data'.toJson.compact) :
    Source.hashOf data = Source.hashOf data' ↔ data = data' :=
  ⟨fun h => eq_of_compact hd hd' (Sha256.eq_of_hexDigest hapart h), congrArg Source.hashOf⟩

namespace Building

open Forest

variable {chart : Chart} {st : Building} {x : Option (DataSource × List Stage) × Chart}
  {c : Component} {data : DataSource} {stages : List Stage}

/-- Above the main output of a chart stands a source with the hash of the data that the chart
    draws on. -/
theorem root_of_noted (hn : st.flow.stages.walk.Nodup) (hc : Noted st x c)
    (hdrawn : x.2.drawn x.1 = some (data, stages)) : ∃ main s, c.main = some main ∧
      (st.flow.stages.rootOf main, .source s) ∈ st.flow.stages.heads ∧
        s.hash = Source.hashOf data := by
  rw [Noted, hdrawn] at hc
  obtain ⟨w, hw, hmain, declared, hhash, hroute⟩ := hc
  -- the way to the main output begins with the source
  obtain ⟨e, rest, he, hsource, -⟩ := List.map_eq_cons_iff.1 hroute
  have hhead : w.route.head? = some e := by rw [he]; rfl
  refine ⟨w.id, .ofData declared, hmain, ?_, hhash⟩
  rw [rootOf_of_route hn hw hhead, ← hsource]
  exact mem_heads_of_route hw hhead

/-- Sources with one hash are one. -/
theorem eq_of_hash_eq (hst : ofChart chart = .ok st) {i i' : Nat} {s s' : Source}
    (hi : (i, .source s) ∈ st.flow.stages.heads) (hi' : (i', .source s') ∈ st.flow.stages.heads)
    (h : s.hash = s'.hash) : i = i' := by
  -- no two stages of the flow are sources with one hash
  have hapart := List.pairwise_filterMap.1 (List.pairwise_map.1 (hashes_of_ofChart hst).1)
  have hsymm : Std.Symm fun e e' : Nat × Stage =>
      ∀ t, e.2.source? = some t → ∀ t', e'.2.source? = some t' → t.hash ≠ t'.hash :=
    ⟨fun e e' hne t ht t' ht' => (hne t' ht' t ht).symm⟩
  -- two roots would be two entries of the list
  by_contra hne
  have hentries : (i, Stage.source s) ≠ (i', .source s') := fun heq => hne (congrArg Prod.fst heq)
  exact hapart.forall (mem_toList_of_mem_heads hi) (mem_toList_of_mem_heads hi') hentries s rfl s'
    rfl h

/-- The source at a root is that of the declaration with its hash, where that has no other. -/
theorem source_eq_of_hash (h : ofChart chart = .ok st) (hf : chart.DataFinite)
    (hapart : chart.TextsApart) (hdata : data ∈ chart.declarations) {i : Nat} {s : Source}
    (hi : (i, .source s) ∈ st.flow.stages.heads) (hs : s.hash = Source.hashOf data) :
    s = .ofData data := by
  obtain ⟨own, hown, rfl⟩ := declared_of_head h hi
  rw [(DataSource.hashOf_eq_iff (hf.of_mem hown) (hf.of_mem hdata)
    (hapart own hown data hdata)).1 hs]

/-- The main output of chart number `k` stands below source number `i`, which loads the data. -/
structure Reads (st : Building) (k i : Nat) (data : DataSource) : Prop where
  root : (st.components[k]?.bind Component.main).map st.flow.stages.rootOf = some i
  source : (i, .source (.ofData data)) ∈ st.flow.stages.heads

/-- A chart reads from the source of the data that it draws on. -/
theorem exists_reads (h : ofChart chart = .ok st) (hf : chart.DataFinite)
    (hapart : chart.TextsApart) {k : Nat} (hk : chart.drawnData[k]? = some (some data)) :
    ∃ i, st.Reads k i data := by
  have hnoted := (laid_of_ofChart h).noted
  obtain ⟨x, stages, hx, hdrawn⟩ := Chart.exists_of_drawnData hk
  obtain ⟨hlt, rfl⟩ := List.getElem?_eq_some_iff.1 hx
  -- what is noted for the chart stands at the same place among the components
  have hlt' : k < st.components.length := hnoted.length_eq ▸ hlt
  obtain ⟨main, s, hmain, hhead, hhash⟩ :=
    root_of_noted (ofChart_lawful h).nodup (hnoted.get hlt hlt') hdrawn
  obtain rfl :=
    source_eq_of_hash h hf hapart (Chart.mem_declarations_of_drawnData hk) hhead hhash
  refine ⟨_, ?_, hhead⟩
  rw [List.getElem?_eq_getElem hlt', Option.bind_some]
  exact congrArg (Option.map _) hmain

/-- Charts read from one source exactly if it loads the same data for both. -/
theorem Reads.eq_iff {k k' i i' : Nat} {data' : DataSource} (hst : ofChart chart = .ok st)
    (h : st.Reads k i data) (h' : st.Reads k' i' data') : i = i' ↔ data = data' := by
  constructor
  · rintro rfl
    have hplaces := place_inj (ofChart_lawful hst).nodup (mem_heads_iff.1 h.source)
      (mem_heads_iff.1 h'.source) rfl
    exact congrArg Source.data (Stage.source.inj (congrArg Place.content hplaces))
  · rintro rfl
    exact eq_of_hash_eq hst h.source h'.source rfl

end Building

/-- Declarations of data that are read off JSON texts have one text, and where that does not
    collide one hash, exactly if they are equal.  Hence charts of one tree read from one source
    exactly if the data that they draw on are declared alike. -/
theorem Source.shared_iff :
    (∀ text text' data data', readJson DataSource.decode text = .ok data →
      readJson DataSource.decode text' = .ok data' →
        (data.toJson.compact = data'.toJson.compact ↔ data = data') ∧
          (Sha256.Apart data.toJson.compact data'.toJson.compact →
            ((Source.ofData data).hash = (Source.ofData data').hash ↔ data = data'))) ∧
    ∀ text chart st, Chart.ofJson text = .ok chart → chart.TextsApart →
      Building.ofChart chart = .ok st →
        ∀ k k' data data', chart.drawnData[k]? = some (some data) →
          chart.drawnData[k']? = some (some data') →
            ∃ i i', st.Reads k i data ∧ st.Reads k' i' data' ∧ (i = i' ↔ data = data') := by
  refine ⟨fun text text' data data' h h' => ?_,
    fun text chart st htext hapart hbuilt k k' data data' hk hk' => ?_⟩
  -- what was read can be read back from its text, so the text tells it
  · have hd := DataSource.finite_of_readJson h
    have hd' := DataSource.finite_of_readJson h'
    exact ⟨⟨DataSource.eq_of_compact hd hd', fun heq => by rw [heq]⟩,
      DataSource.hashOf_eq_iff hd hd'⟩
  -- each drawing chart reads a root, and two roots are one if their data are
  · have hf := Chart.dataFinite_of_ofJson htext
    obtain ⟨i, hi⟩ := Building.exists_reads hbuilt hf hapart hk
    obtain ⟨i', hi'⟩ := Building.exists_reads hbuilt hf hapart hk'
    exact ⟨i, i', hi, hi', hi.eq_iff hbuilt hi'⟩

/-- A row that is zero. -/
def zeroText : String := "\x7b\"values\":[0.0]\x7d"

/-- The same row. -/
def respelledText : String := "\x7b\"values\": [0e3]\x7d"

/-- A row that is the negative zero. -/
def negativeText : String := "\x7b\"values\":[-0.0]\x7d"

/-- Bars over the data. -/
def barsText (data : String) : String :=
  "\x7b\"data\":" ++ data ++ ",\"kind\":\x7b\"type\":\"unit\",\"mark\":\"bar\"\x7d\x7d"

/-- A layer of bars over the three. -/
def zerosText : String :=
  "\x7b\"kind\":\x7b\"type\":\"layer\",\"children\":[" ++ barsText zeroText ++ "," ++
    barsText negativeText ++ "," ++ barsText respelledText ++ "]\x7d\x7d"

/-- The digests of both texts differ. -/
theorem apart_zeros : ∀ s ∈ [zeroText, negativeText], ∀ t ∈ [zeroText, negativeText],
    Sha256.Apart s t := by
  unfold Sha256.Apart
  decide +kernel

/-- What is known of a result shows that there is one. -/
theorem exists_ok_of_map {ε α β : Type} {r : Except ε α} {f : α → β} {b : β}
    (h : r.toOption.map f = some b) : ∃ a, r = .ok a ∧ f a = b := by
  cases r with
  | error e => exact absurd h (by simp [Except.toOption])
  | ok a => exact ⟨a, rfl, Option.some.inj h⟩

/-- The layer is read and built, and draws on the data in turn. -/
theorem exists_zeros : ∃ chart st, Chart.ofJson zerosText = .ok chart ∧
    Building.ofChart chart = .ok st ∧
      chart.declarations.map (·.toJson.compact) = [zeroText, negativeText, zeroText] ∧
        chart.drawnData.map (Option.map (·.toJson.compact)) =
          [some zeroText, some negativeText, some zeroText, none] := by
  let facts (chart : Chart) := ((Building.ofChart chart).toOption.map fun _ => (),
    chart.declarations.map (·.toJson.compact),
    chart.drawnData.map (Option.map (·.toJson.compact)))
  obtain ⟨chart, hchart, hfacts⟩ : ∃ chart, Chart.ofJson zerosText = .ok chart ∧ facts chart =
      (some (), [zeroText, negativeText, zeroText],
        [some zeroText, some negativeText, some zeroText, none]) :=
    exists_ok_of_map (by decide +kernel)
  obtain ⟨hok, hfacts⟩ := Prod.mk.inj hfacts
  obtain ⟨st, hst, -⟩ := exists_ok_of_map hok
  exact ⟨chart, st, hchart, hst, Prod.mk.inj hfacts⟩

/-- The first bars share their source with the third, and not with the second. -/
theorem Source.shared_iff_signedZeros :
    (∃ data data', readJson DataSource.decode zeroText = .ok data ∧
      readJson DataSource.decode respelledText = .ok data ∧
        readJson DataSource.decode negativeText = .ok data' ∧
          (Source.ofData data).hash ≠ (Source.ofData data').hash) ∧
    ∃ chart st data data', Chart.ofJson zerosText = .ok chart ∧ Building.ofChart chart = .ok st ∧
      (∃ i, st.Reads 0 i data ∧ st.Reads 2 i data) ∧
        ∃ i i', st.Reads 0 i data ∧ st.Reads 1 i' data' ∧ i ≠ i' := by
  have hne : zeroText ≠ negativeText := by decide
  obtain ⟨hread, hbuild⟩ := Source.shared_iff
  constructor
  · let decode := readJson DataSource.decode
    let compact (data : DataSource) := data.toJson.compact
    obtain ⟨d, hd, htext⟩ : ∃ d, decode zeroText = .ok d ∧ compact d = zeroText :=
      exists_ok_of_map (by decide +kernel)
    obtain ⟨d₁, hd₁, htext₁⟩ : ∃ d, decode respelledText = .ok d ∧ compact d = zeroText :=
      exists_ok_of_map (by decide +kernel)
    obtain ⟨d₂, hd₂, htext₂⟩ : ∃ d, decode negativeText = .ok d ∧ compact d = negativeText :=
      exists_ok_of_map (by decide +kernel)
    -- the two spellings have one text
    obtain rfl : d = d₁ := (hread _ _ _ _ hd hd₁).1.1 (htext.trans htext₁.symm)
    have hapart : Sha256.Apart (compact d) (compact d₂) := by
      rw [htext, htext₂]
      exact apart_zeros _ (by simp) _ (by simp)
    refine ⟨d, d₂, hd, hd₁, hd₂, fun hhash => hne ?_⟩
    rw [← htext, ((hread _ _ _ _ hd hd₂).2 hapart).1 hhash, htext₂]
  · obtain ⟨chart, st, hchart, hst, hdeclared, hdrawn⟩ := exists_zeros
    have htexts {d : DataSource} (hd : d ∈ chart.declarations) :
        d.toJson.compact ∈ [zeroText, negativeText] := by
      have hmem := hdeclared ▸ List.mem_map_of_mem hd
      simpa [or_comm, or_left_comm] using hmem
    have hapart : chart.TextsApart := fun d hd d' hd' =>
      apart_zeros _ (htexts hd) _ (htexts hd')
    -- the data of each layer, by their texts
    have drawn (k : Nat) (text : String)
        (hk : [some zeroText, some negativeText, some zeroText, none][k]? = some (some text)) :
        ∃ data, chart.drawnData[k]? = some (some data) ∧ data.toJson.compact = text := by
      rw [← hdrawn, List.getElem?_map] at hk
      obtain ⟨own, hk, htext⟩ := Option.map_eq_some_iff.1 hk
      obtain ⟨data, rfl, hcompact⟩ := Option.map_eq_some_iff.1 htext
      exact ⟨data, hk, hcompact⟩
    obtain ⟨d₀, h₀, htext₀⟩ := drawn 0 zeroText rfl
    obtain ⟨d₁, h₁, htext₁⟩ := drawn 1 negativeText rfl
    obtain ⟨d₂, h₂, htext₂⟩ := drawn 2 zeroText rfl
    have hf {k : Nat} {d : DataSource} (h : chart.drawnData[k]? = some (some d)) : d.Finite :=
      (Chart.dataFinite_of_ofJson hchart).of_mem (Chart.mem_declarations_of_drawnData h)
    obtain rfl : d₀ = d₂ := DataSource.eq_of_compact (hf h₀) (hf h₂) (htext₀.trans htext₂.symm)
    obtain ⟨i, j, hi, hj, hij⟩ := hbuild _ _ _ hchart hapart hst 0 2 _ _ h₀ h₂
    obtain ⟨i', j', hi', hj', hij'⟩ := hbuild _ _ _ hchart hapart hst 0 1 _ _ h₀ h₁
    refine ⟨chart, st, d₀, d₁, hchart, hst, ⟨i, hi, hij.2 rfl ▸ hj⟩, i', j', hi', hj',
      fun h => hne ?_⟩
    rw [← htext₀, hij'.1 h, htext₁]

end ChartPipeline
