import Sypl.Processor
import Sypl.Tabwriter

/-!
# The JSON formatters

`mapBuilder` (`formatter/formatter.go`) builds the map that the `JSON` and `JSONPretty`
formatters serialise: the canonical entries of the message, then its tags, flag and routing
when it has some, and last its structured fields, each by an assignment `mM[k] = v`.

* The map reads the structured fields first and the entries written before them for the other
  keys (`get?_mapBuilder`).
* So every structured field is in the map with its own value, and a canonical entry is there
  unless a field has its key (`mapBuilder_spec`): a field named `message` replaces the
  processed content (`mapBuilder_message_field`).
-/

namespace Sypl

namespace Formatter

/-- `time.RFC3339`. -/
def rfc3339 : GoString := "2006-01-02T15:04:05Z07:00"

/-- `strings.ToLower` of an ASCII string, Go's path for the strings `Level.String` returns:
each of `A` to `Z` becomes its lower case. -/
def toLowerASCII (s : GoString) : GoString := s.map fun b => if 65 ≤ b ∧ b ≤ 90 then b + 32 else b

/-- The seven entries `mapBuilder` writes for every message, in its order. -/
def required (rt : Runtime) (m : Message Fields) : List (GoString × Any) :=
  [("id", .str m.id), ("contentBasedHashID", .str m.contentBasedHashID),
    ("component", .str m.componentName), ("output", .str m.outputName),
    ("level", .str (toLowerASCII m.level.string)),
    ("timestamp", .str (rt.formatTime rfc3339 m.timestamp)),
    ("message", .str m.content.processed)]

/-- The entries `mapBuilder` writes next, each when the message has one. -/
def optional (m : Message Fields) : List (GoString × Any) :=
  (if m.tags.length ≠ 0 then [(("tags" : GoString), Any.strs m.tags)] else []) ++
  (if m.flag ≠ .none then [(("flag" : GoString), Any.flag m.flag)] else []) ++
  (if m.outputsNames.length ≠ 0 then [(("outputsNames" : GoString), Any.strs m.outputsNames)]
    else []) ++
  (if m.processorsNames.length ≠ 0
    then [(("processorsNames" : GoString), Any.strs m.processorsNames)] else [])

/-- `mapBuilder(m)`: the assignments of the entries, in order, into an empty map, then the
range loop over the structured fields when there are some (a `nil` map has none). -/
def mapBuilder (rt : Runtime) (m : Message Fields) : GoMap Any :=
  let mM := (required rt m ++ optional m).foldl (fun mM e => mM.insert e.1 e.2) .empty
  if (m.fields.getD .empty).entries.length ≠ 0 then (m.fields.getD .empty).copyInto mM else mM

/-- The keys `mapBuilder` can write before the fields, each once. -/
def entryKeys : List GoString :=
  ["id", "contentBasedHashID", "component", "output", "level", "timestamp", "message", "tags",
    "flag", "outputsNames", "processorsNames"]

theorem map_ite_sublist {c : Prop} {_ : Decidable c} (e : GoString × Any) :
    List.Sublist ((if c then [e] else []).map Prod.fst) [e.1] := by
  split <;> simp

theorem keys_sublist (rt : Runtime) (m : Message Fields) :
    List.Sublist ((required rt m ++ optional m).map Prod.fst) entryKeys := by
  simp only [required, optional, List.map_append, List.map_cons, List.map_nil, List.cons_append,
    List.nil_append]
  refine .cons₂ _ (.cons₂ _ (.cons₂ _ (.cons₂ _ (.cons₂ _ (.cons₂ _ (.cons₂ _ ?_))))))
  exact (((map_ite_sublist _).append (map_ite_sublist _)).append (map_ite_sublist _)).append
    (map_ite_sublist _)

theorem nodup_entryKeys : entryKeys.Nodup := by decide

/-- The map reads the structured fields first, then the entries written before them. -/
theorem get?_mapBuilder (rt : Runtime) (m : Message Fields) (k : GoString) :
    (mapBuilder rt m).get? k =
      ((m.fields.getD .empty).get? k).or ((required rt m ++ optional m).lookup k) := by
  have hentries := GoMap.get?_foldl_insert .empty k (required rt m ++ optional m)
    (nodup_entryKeys.sublist (keys_sublist rt m))
  rw [GoMap.get?_empty, Option.or_none] at hentries
  unfold mapBuilder
  split
  · rw [GoMap.get?_copyInto, hentries]
  · have hnone : (m.fields.getD .empty).get? k = none := by simp_all [GoMap.get?]
    rw [hnone, Option.none_or, hentries]

/-- Every structured field is in the map with its value, and each of the seven canonical
entries is there unless a structured field has its key. -/
theorem mapBuilder_spec (rt : Runtime) (m : Message Fields) :
    (∀ k v, (m.fields.getD .empty).get? k = some v → (mapBuilder rt m).get? k = some v) ∧
    ∀ e ∈ required rt m, (m.fields.getD .empty).get? e.1 = none →
      (mapBuilder rt m).get? e.1 = some e.2 := by
  refine ⟨fun k v hv => by simp [get?_mapBuilder, hv], fun e he hnone => ?_⟩
  rw [get?_mapBuilder, hnone, Option.none_or]
  exact GoMap.lookup_of_mem (nodup_entryKeys.sublist (keys_sublist rt m))
    (List.mem_append_left _ he)

/-- A message of content `"x"` whose one structured field is `message` is serialised without
its content: the field replaces it. -/
theorem mapBuilder_message_field :
    (mapBuilder ⟨0, fun _ _ => [], id, id⟩
      (Message.new (some (GoMap.empty.insert "message" (.int 1))) "" "" 0 .info "x")).get?
        "message" ≠ some (.str "x") := by
  rw [get?_mapBuilder]
  simp [Message.new]

/-! ## The text formatter -/

/-- `fmt`'s `%v` of a field's value. `flagString` is the `String` method of `flag.Flag`, which is
not in the repository. -/
def formatValue (flagString : Flag → GoString) : Any → GoString
  | .nil => "<nil>"
  | .bool b => if b then "true" else "false"
  | .int n => GoString.ofString (toString n)
  | .str s => s
  | .strs ss => "[" ++ GoString.join ss " " ++ "]"
  | .flag f => flagString f

/-- `Text()`, the function of the processor, on a tab writer over an empty buffer. The range loop
over the fields visits them in `order`, which Go leaves unspecified and varies from run to run:
any permutation of the map's entries. -/
def text (rt : Runtime) (flagString : Flag → GoString) (order : List (GoString × Any))
    (m : Message Fields) : Message Fields :=
  let w := Tabwriter.Writer.new
  let w := w.write ("component=" ++ m.componentName ++ "\t")
  let w := w.write ("output=" ++ GoString.toLower rt.toLower m.outputName ++ "\t")
  let w := w.write ("level=" ++ GoString.toLower rt.toLower m.level.string ++ "\t")
  let w := w.write ("message=" ++ m.content.processed ++ "\t")
  let w := w.write ("timestamp=" ++ rt.formatTime rfc3339 m.timestamp ++ "\t")
  let w := if (m.fields.getD .empty).entries.length ≠ 0 then
      order.foldl (fun w e => w.write (e.1 ++ "=" ++ formatValue flagString e.2 ++ "\t")) w
    else w
  let w := if m.tags.length ≠ 0 then w.write ("tags=[" ++ GoString.join m.tags ", " ++ "]") else w
  m.setProcessed w.flush.output

/-- The cells `Text` ends with a tab, in order. -/
def textCells (rt : Runtime) (flagString : Flag → GoString) (order : List (GoString × Any))
    (m : Message Fields) : List GoString :=
  ["component=" ++ m.componentName, "output=" ++ GoString.toLower rt.toLower m.outputName,
    "level=" ++ GoString.toLower rt.toLower m.level.string, "message=" ++ m.content.processed,
    "timestamp=" ++ rt.formatTime rfc3339 m.timestamp] ++
  if (m.fields.getD .empty).entries.length ≠ 0 then
    order.map fun e => e.1 ++ "=" ++ formatValue flagString e.2
  else []

/-- What `Text` writes after the last tab: the tags, when there are some. -/
def textTags (m : Message Fields) : GoString :=
  if m.tags.length ≠ 0 then "tags=[" ++ GoString.join m.tags ", " ++ "]" else []

theorem foldl_write (cell : GoString × Any → GoString) :
    ∀ (order : List (GoString × Any)) (w : Tabwriter.Writer),
      order.foldl (fun w e => w.write (cell e ++ "\t")) w =
        w.write ((order.map cell).flatMap (· ++ [9]))
  | [], _ => rfl
  | e :: order, w => by
    rw [List.foldl_cons, foldl_write cell order, List.map_cons, List.flatMap_cons,
      Tabwriter.Writer.write_append _ (cell e ++ [9])]
    rfl

/-- `Text`'s writes, one after the other, are one write of its cells, each with its tab, and then
of its tags. -/
theorem text_eq_write (rt : Runtime) (flagString : Flag → GoString)
    (order : List (GoString × Any)) (m : Message Fields) :
    text rt flagString order m = m.setProcessed ((Tabwriter.Writer.new.write
      ((textCells rt flagString order m).flatMap (· ++ [9]) ++ textTags m)).flush.output) := by
  have htab : GoString.ofString "\t" = [9] := rfl
  unfold text textCells textTags
  simp only [foldl_write]
  split_ifs <;>
    simp only [← Tabwriter.Writer.write_append, List.flatMap_cons, List.flatMap_append,
      List.flatMap_nil, List.append_assoc, List.append_nil, htab, List.nil_append]

/-- When no cell of `Text` holds a tab writer's special byte, `Text` sets the processed content
to its cells, the fields in the order the range loop visits them, and then its tags, joined by
single spaces. -/
theorem text_processed (rt : Runtime) (flagString : Flag → GoString)
    (order : List (GoString × Any)) (m : Message Fields)
    (hcells : ∀ c ∈ textCells rt flagString order m, ∀ x ∈ c, Tabwriter.special x = false)
    (htags : ∀ x ∈ textTags m, Tabwriter.special x = false) :
    (text rt flagString order m).content.processed =
      GoString.join (textCells rt flagString order m ++
        if textTags m = [] then [] else [textTags m]) " " := by
  rw [text_eq_write, Message.setProcessed_processed,
    Tabwriter.Writer.write_flush_line hcells htags]

theorem text_processed_two_fields :
    (∀ c ∈ textCells ⟨0, fun _ _ => [], id, id⟩ (fun _ => []) [("a", .int 1), ("b", .int 2)]
        (Message.new (some ((GoMap.empty.insert "a" (.int 1)).insert "b" (.int 2))) "" "" 0 .info
          "x"), ∀ x ∈ c, Tabwriter.special x = false) ∧
      (∀ x ∈ textTags (Message.new (some ((GoMap.empty.insert "a" (.int 1)).insert "b" (.int 2)))
          "" "" 0 .info "x"), Tabwriter.special x = false) ∧
      (text ⟨0, fun _ _ => [], id, id⟩ (fun _ => []) [("a", .int 1), ("b", .int 2)]
          (Message.new (some ((GoMap.empty.insert "a" (.int 1)).insert "b" (.int 2))) "" "" 0 .info
            "x")).content.processed =
        GoString.join (textCells ⟨0, fun _ _ => [], id, id⟩ (fun _ => []) [("a", .int 1), ("b", .int 2)]
          (Message.new (some ((GoMap.empty.insert "a" (.int 1)).insert "b" (.int 2))) "" "" 0 .info
            "x") ++ []) " " :=
  ⟨by decide, by decide, text_processed _ _ _ _ (by decide) (by decide)⟩

set_option maxRecDepth 2000 in
/-- A message whose fields are `a` and `b`: the range loop may visit them in either order, and the
two runs of `Text` set different contents, `… a=1 b=2` and `… b=2 a=1`. -/
theorem text_two_orders :
    [(GoString.ofString "a", Any.int 1), ("b", .int 2)].Perm
        ((GoMap.empty.insert "a" (.int 1)).insert "b" (.int 2)).entries ∧
      [(GoString.ofString "b", Any.int 2), ("a", .int 1)].Perm
        ((GoMap.empty.insert "a" (.int 1)).insert "b" (.int 2)).entries ∧
      (text ⟨0, fun _ _ => [], id, id⟩ (fun _ => []) [("a", .int 1), ("b", .int 2)]
          (Message.new (some ((GoMap.empty.insert "a" (.int 1)).insert "b" (.int 2))) "" "" 0 .info
            "x")).content.processed ≠
        (text ⟨0, fun _ _ => [], id, id⟩ (fun _ => []) [("b", .int 2), ("a", .int 1)]
          (Message.new (some ((GoMap.empty.insert "a" (.int 1)).insert "b" (.int 2))) "" "" 0 .info
            "x")).content.processed := by
  decide

end Formatter

end Sypl
