import ChartPipeline.Proofs.ReadValues

/-!
# Charts in documents with a version

A document is a chart itself, or has a version, or no kind of its own, and holds a chart under
`model`.  The rule is applied to JSON and to YAML, and both ways look at the same part of a
document where it has that part.  They differ where it is missing: a YAML document without its
`model` is refused, a JSON document is taken for a chart all the same.

## Key results

- `Chart.decodeDocument_ofJson`, `ChartDocument.ofYamlValue_shown`: the part that is taken for a
  chart
- `Chart.ofJson_eq_ofYaml_iff`: the documents that both ways load alike
-/

namespace ChartPipeline

/-! ### Fields of values that show JSON -/

namespace Value

/-- A plain value has no tag to take off. -/
theorem untagged_of_isPlain {v : Value} (h : v.isPlain = true) : v.untagged = v := by
  cases v with
  | tagged => exact absurd h (by simp [isPlain])
  | _ => rfl

/-- The entries of a map are found under their names. -/
theorem field?_toValue (es : Fields) (name : String) : es.toValue.field? name = es.get? name := by
  rw [Fields.toValue, field?, List.find?_map]
  simp [Fields.get?, Function.comp_def, str?]

end Value

namespace Json

variable {j : Json} {v : Value} {text : String}

/-- An object of JSON has the same fields as a value. -/
theorem field?_ofJson (j : Json) (name : String) :
    (Value.ofJson j).field? name = (j.field? name).map .ofJson := by
  cases j with
  | obj fields =>
    rw [ofJson_obj, Value.field?_toValue, namedValues, Fields.get?, List.find?_map, field?]
    simp [Function.comp_def]
  | _ => rfl

/-- What shows JSON has no tag to take off. -/
theorem ShownBy.untagged (h : j.ShownBy v) : v.untagged = v := Value.untagged_of_isPlain h.isPlain

/-- It is a text where the JSON is, and the same one. -/
theorem ShownBy.str? (h : j.ShownBy v) : v.str? = j.str? := by
  cases j with
  | null | bool | int | float | str =>
    rw [ShownBy] at h
    subst h
    rfl
  | arr =>
    obtain ⟨vs, rfl, -⟩ := h
    rfl
  | obj =>
    obtain ⟨es, es', rfl, -, -⟩ := h
    rfl

/-- An object has each name once. -/
def NamedOnce (j : Json) : Prop := ∀ fields, j = obj fields → (fields.map Prod.fst).Nodup

/-- A value that shows JSON has the same fields. -/
theorem ShownBy.rel_field? (h : j.ShownBy v) (hn : j.NamedOnce) (name : String) :
    Option.Rel ShownBy (j.field? name) (v.field? name) := by
  cases j with
  | null | bool | int | float | str =>
    rw [ShownBy] at h
    subst h
    exact .none
  | arr =>
    obtain ⟨vs, rfl, -⟩ := h
    exact .none
  | obj fields =>
    obtain ⟨es, es', rfl, hp, hshown⟩ := h
    have hnodup : (es.map Prod.fst).Nodup :=
      (hp.map _).nodup_iff.2 (hshown.names ▸ hn fields rfl)
    rw [Value.field?_toValue, Fields.get?_of_perm hp hnodup]
    exact Fields.rel_get? hshown name

/-! ### Names that are read -/

namespace Read

variable {fuel depth : Nat} {cs rest : List Char}

/-- What is no object has no names. -/
theorem namedOnce_of_ne {j : Json} (h : ∀ fields, j ≠ obj fields) : j.NamedOnce :=
  fun fields heq => absurd heq (h fields)

/-- A number is no object. -/
theorem namedOnce_number (h : number cs = .ok (j, rest)) : j.NamedOnce := by
  obtain ⟨⟨whole, rest₁⟩, -, h⟩ := bind_eq_ok h
  obtain ⟨⟨fraction, rest₂⟩, -, h⟩ := bind_eq_ok h
  obtain ⟨⟨exponent, rest₃⟩, -, h⟩ := bind_eq_ok h
  dsimp only at h
  apply namedOnce_of_ne
  rintro fields rfl
  split at h <;> cases h

/-- An object that is read has each name once. -/
theorem namedOnce_value (h : value fuel depth cs = .ok (j, rest)) : j.NamedOnce := by
  cases fuel with
  | zero => exact absurd h (by simp [value])
  | succ fuel =>
    rw [value] at h
    -- by the first character, as the value is read
    split at h
    · cases h
    · rw [eq_of_word h]
      exact namedOnce_of_ne (by simp)
    · rw [eq_of_word h]
      exact namedOnce_of_ne (by simp)
    · rw [eq_of_word h]
      exact namedOnce_of_ne (by simp)
    · obtain ⟨s, -, h⟩ := bind_eq_ok h
      cases h
      exact namedOnce_of_ne (by simp)
    · split at h
      · cases h
      · obtain ⟨js, -, h⟩ := bind_eq_ok h
        cases h
        exact namedOnce_of_ne (by simp)
    · split at h
      · cases h
      · obtain ⟨⟨fs, rest'⟩, -, h⟩ := bind_eq_ok h
        cases h
        -- an object is made with its names in order, and of two equal ones the last one counts
        obtain ⟨m, hm, -⟩ := exists_object fs.reverse
        intro fields heq
        obtain rfl := Json.obj.inj (hm.symm.trans heq)
        exact m.nodup_keys
    · split at h
      · exact namedOnce_number h
      · cases h

end Read

/-- So in a text as a whole. -/
theorem namedOnce_of_read (h : read text = .ok j) : j.NamedOnce := by
  obtain ⟨⟨k, rest⟩, hk, h⟩ := bind_eq_ok h
  dsimp only at h
  split at h
  · cases h
    exact Read.namedOnce_value hk
  · cases h

/-! ### The part that is a chart -/

/-- Whether a document should hold its chart under `model`: it has a text for a version, or no kind
of its own. -/
def isWrapped (j : Json) : Bool :=
  ((j.field? "version").bind str?).isSome || (j.field? "kind").isNone

/-- The part of a document that should be a chart, if the document has it. -/
def chartPart? (j : Json) : Option Json := if j.isWrapped then j.field? "model" else some j

end Json

open Json

variable {j : Json} {w : Value} {text : String}

/-- A JSON document is taken for a chart where it does not have the part that should be one. -/
theorem Chart.decodeDocument_ofJson (j : Json) :
    decodeDocument (.ofJson j) = decode .json (.ofJson (j.chartPart?.getD j)) := by
  have hversion : (((Value.ofJson j).field? "version").bind Value.str?).isSome =
      ((j.field? "version").bind Json.str?).isSome := by
    rw [field?_ofJson]
    cases j.field? "version" with
    | none => rfl
    | some k => exact congrArg Option.isSome (shownBy_ofJson k).str?
  have hkind : ((Value.ofJson j).field? "kind").isNone = (j.field? "kind").isNone := by
    rw [field?_ofJson, Option.isNone_map]
  rw [decodeDocument, hversion, hkind, field?_ofJson, ← Json.isWrapped, chartPart?]
  -- what is left is where to look, and whether the part is there
  cases j.isWrapped <;> cases j.field? "model" <;> rfl

namespace ChartDocument

/-- The text under the version is the same in both. -/
theorem version_shown (h : j.ShownBy w) (hn : j.NamedOnce) :
    (w.field? "version").bind (fun u => u.untagged.str?) = (j.field? "version").bind Json.str? := by
  have hrel := h.rel_field? hn "version"
  generalize j.field? "version" = a, w.field? "version" = b at hrel ⊢
  cases hrel with
  | none => rfl
  | some hku =>
    dsimp only [Option.bind_some]
    rw [hku.untagged, hku.str?]

/-- A field is there in both or in neither. -/
theorem isSome_field?_shown (h : j.ShownBy w) (hn : j.NamedOnce) (name : String) :
    (w.field? name).isSome = (j.field? name).isSome := by
  have hrel := h.rel_field? hn name
  generalize j.field? name = a, w.field? name = b at hrel ⊢
  cases hrel <;> rfl

/-- A YAML document is refused where it does not have the part that should be a chart. -/
theorem ofYamlValue_shown (h : j.ShownBy w) (hn : j.NamedOnce) :
    ((ofYamlValue w).map chart).toOption =
      (if j.isWrapped then w.field? "model" else some w).bind (Chart.decode .yaml) ∧
    (j.chartPart? = none → ofYamlValue w = .error .missingModel) := by
  -- a chart with a kind and no version is not wrapped
  have hwrapped : (((w.field? "version").bind fun u => u.untagged.str?).isNone &&
      (w.field? "kind").isSome) = !j.isWrapped := by
    rw [version_shown h hn, isSome_field?_shown h hn, isWrapped]
    cases (j.field? "version").bind Json.str? <;> cases j.field? "kind" <;> rfl
  have hmodel := isSome_field?_shown h hn "model"
  rw [chartPart?, ofYamlValue, h.untagged]
  dsimp only
  rw [hwrapped]
  cases hw : j.isWrapped with
  | false =>
    refine ⟨?_, fun hnone => absurd hnone (by simp)⟩
    rw [if_neg (by decide : ¬ (false = true)), Option.bind_some]
    cases Chart.decode .yaml w <;> rfl
  | true =>
    -- only here may there be no part to decode
    cases hu : w.field? "model" with
    | none => exact ⟨rfl, fun _ => rfl⟩
    | some u =>
      refine ⟨?_, fun hnone => ?_⟩
      · rw [if_pos rfl, Option.bind_some, if_neg (by decide)]
        dsimp only
        cases Chart.decode .yaml u <;> rfl
      · rw [if_pos rfl] at hnone
        rw [hu, hnone] at hmodel
        exact absurd hmodel (by simp)

end ChartDocument

/-! ### Both ways -/

/-- A JSON text holds the chart that is decoded. -/
theorem Chart.toOption_ofJson (hjson : Json.read text = .ok j) :
    (ofJson text).toOption = decodeDocument (.ofJson j) := by
  rw [ofJson, readJson, hjson]
  dsimp only
  cases decodeDocument (.ofJson j) <;> rfl

/-- A text that both readers read alike, and of which the decoders make the same: where its chart
    should be, both ways of loading find the same chart or none; where that part is missing, a JSON
    text is still taken for a chart as a whole, and a YAML text is refused for its missing part.
    Hence both ways agree unless the part is missing and the whole would make a chart. -/
theorem Chart.ofJson_eq_ofYaml_iff (hjson : Json.read text = .ok j)
    (hyaml : Yaml.read text = some w) (hsame : j.ShownBy w)
    (hwhole : decode .yaml w = decode .json (.ofJson j))
    (hmodel : ∀ k u, j.field? "model" = some k → w.field? "model" = some u →
      decode .yaml u = decode .json (.ofJson k)) :
    (∀ part, j.chartPart? = some part →
      (ofJson text).toOption = decode .json (.ofJson part) ∧
        ((ChartDocument.ofYaml text).map ChartDocument.chart).toOption =
          decode .json (.ofJson part)) ∧
    (j.chartPart? = none → (ofJson text).toOption = decode .json (.ofJson j) ∧
      ChartDocument.ofYaml text = .error .missingModel) ∧
    ((ofJson text).toOption = ((ChartDocument.ofYaml text).map ChartDocument.chart).toOption ↔
      (j.chartPart?.isSome = true ∨ decode .json (.ofJson j) = none)) := by
  have hn := Json.namedOnce_of_read hjson
  have hdocument : ChartDocument.ofYaml text = ChartDocument.ofYamlValue w := by
    rw [ChartDocument.ofYaml, hyaml]
  obtain ⟨hpart, hmissing⟩ := ChartDocument.ofYamlValue_shown hsame hn
  rw [Chart.toOption_ofJson hjson, decodeDocument_ofJson, hdocument]
  -- where the part is there, YAML decodes it as JSON does
  have hfound (part : Json) (hsome : j.chartPart? = some part) :
      ((ChartDocument.ofYamlValue w).map ChartDocument.chart).toOption =
        decode .json (.ofJson part) := by
    rw [hpart]
    rw [chartPart?] at hsome
    cases hw : j.isWrapped with
    | false =>
      rw [hw] at hsome
      obtain rfl := Option.some.inj hsome
      exact hwhole
    | true =>
      rw [hw, if_pos rfl] at hsome
      obtain ⟨u, hu⟩ : ∃ u, w.field? "model" = some u := by
        rw [← Option.isSome_iff_exists, ChartDocument.isSome_field?_shown hsame hn, hsome]
        rfl
      rw [if_pos rfl, hu]
      exact hmodel part u hsome hu
  cases hcase : j.chartPart? with
  | some part =>
    refine ⟨fun part' hpart' => ?_, fun hnone => absurd hnone (by simp), ?_⟩
    · obtain rfl := Option.some.inj hpart'
      exact ⟨rfl, hfound part hcase⟩
    · rw [hfound part hcase]
      simp
  | none =>
    -- YAML is refused, so the two agree only if JSON fails as well
    have hrefused := hmissing hcase
    refine ⟨fun part hpart => absurd hpart (by simp), fun _ => ⟨rfl, hrefused⟩, ?_⟩
    rw [hrefused]
    simp [Except.map, Except.toOption]

/-- Ticks under `model`, after a version. -/
def wrappedText : String :=
  "\x7b\"version\": \"0.1\", \"model\": \x7b\"kind\": \x7b\"type\": \"unit\", \"mark\": \"tick\"\x7d\x7d\x7d"

/-- Ticks, with the names in order. -/
def tickJson : Json := .obj [("kind", .obj [("mark", .str "tick"), ("type", .str "unit")])]

/-- Ticks, with the names as they come. -/
def tickValue : Value :=
  .map [(.str "kind", .map [(.str "type", .str "unit"), (.str "mark", .str "tick")])]

/-- The kind of a unit is shown by its entries in either order. -/
theorem unitKind_shown (mark : String) :
    (Json.obj [("mark", .str mark), ("type", .str "unit")]).ShownBy
      (.map [(.str "type", .str "unit"), (.str "mark", .str mark)]) :=
  ⟨[("type", .str "unit"), ("mark", .str mark)], _, rfl, .swap .., _, _, rfl, rfl, _, _, rfl, rfl,
    rfl⟩

/-- The ticks are the same in both orders. -/
theorem tick_shown : tickJson.ShownBy tickValue :=
  ⟨[("kind", _)], _, rfl, .refl _, _, _, rfl, unitKind_shown "tick", rfl⟩

/-- The document with a version. -/
def wrappedJson : Json := .obj [("model", tickJson), ("version", .str "0.1")]

/-- The document with a version, its entries in the order of the text. -/
def wrappedValue : Value := .map [(.str "version", .str "0.1"), (.str "model", tickValue)]

set_option maxRecDepth 2000 in
/-- The ticks under `model` are found in JSON as in YAML. -/
theorem Chart.ofJson_eq_ofYaml_wrappedText :
    Json.read wrappedText = .ok wrappedJson ∧ Yaml.read wrappedText = some wrappedValue ∧
      wrappedJson.ShownBy wrappedValue ∧ (decode .json (.ofJson tickJson)).isSome = true ∧
        (ofJson wrappedText).toOption = decode .json (.ofJson tickJson) ∧
          ((ChartDocument.ofYaml wrappedText).map ChartDocument.chart).toOption =
            decode .json (.ofJson tickJson) := by
  have hjson : Json.read wrappedText = .ok wrappedJson := by cbv
  have hyaml : Yaml.read wrappedText = some wrappedValue := by cbv
  have hsame : wrappedJson.ShownBy wrappedValue :=
    ⟨[("version", .str "0.1"), ("model", tickValue)],
      [("model", tickValue), ("version", .str "0.1")], rfl, .swap .., _, _, rfl, tick_shown, _, _,
      rfl, rfl, rfl⟩
  have hwhole : decode .yaml wrappedValue = decode .json (.ofJson wrappedJson) := by cbv
  have htick : decode .yaml tickValue = decode .json (.ofJson tickJson) := by cbv
  have hmodel (k : Json) (u : Value) (hk : wrappedJson.field? "model" = some k)
      (hu : wrappedValue.field? "model" = some u) : decode .yaml u = decode .json (.ofJson k) := by
    obtain rfl := Option.some.inj hk
    obtain rfl := Option.some.inj hu
    exact htick
  exact ⟨hjson, hyaml, hsame, by decide +kernel,
    (ofJson_eq_ofYaml_iff hjson hyaml hsame hwhole hmodel).1 tickJson rfl⟩

/-- Points with a version of their own, and nothing under `model`. -/
def versionedText : String :=
  "\x7b\"version\": \"0.1\", \"kind\": \x7b\"type\": \"unit\", \"mark\": \"point\"\x7d\x7d"

/-- The points, with the names in order. -/
def versionedJson : Json :=
  .obj [("kind", .obj [("mark", .str "point"), ("type", .str "unit")]), ("version", .str "0.1")]

/-- The points, with the names as they come. -/
def versionedValue : Value :=
  .map [(.str "version", .str "0.1"),
    (.str "kind", .map [(.str "type", .str "unit"), (.str "mark", .str "point")])]

/-- Both readers read the points alike, and the decoders make the same of them; a JSON text gives
    the chart, and the same text in YAML is refused. -/
theorem Chart.ofJson_ne_ofYaml_versionedText :
    Json.read versionedText = .ok versionedJson ∧ Yaml.read versionedText = some versionedValue ∧
      versionedJson.ShownBy versionedValue ∧
        decode .yaml versionedValue = decode .json (.ofJson versionedJson) ∧
          versionedJson.field? "model" = none ∧ versionedValue.field? "model" = none ∧
            (ofJson versionedText).toOption.isSome = true ∧
              ChartDocument.ofYaml versionedText = .error .missingModel := by
  have hsame : versionedJson.ShownBy versionedValue :=
    ⟨[("version", .str "0.1"), ("kind", _)], [("kind", _), ("version", _)], rfl, .swap ..,
      _, _, rfl, unitKind_shown "point", _, _, rfl, rfl, rfl⟩
  have hjson : Json.read versionedText = .ok versionedJson := by cbv
  have hyaml : Yaml.read versionedText = some versionedValue := by cbv
  refine ⟨hjson, hyaml, hsame, by cbv, rfl, rfl, ?_, ?_⟩
  · rw [Chart.toOption_ofJson hjson]
    decide +kernel
  · rw [ChartDocument.ofYaml, hyaml]
    rfl

end ChartPipeline
