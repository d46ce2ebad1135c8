/-!
The catalog of node kinds. A node names its kind by a tag; tags outside the catalog are kept as they
are and have no kind.
-/

namespace SchemaGraph

inductive Kind where
  | any
  | none
  | bool
  | int
  | float
  | decimal
  | str
  | bytes
  | date
  | time
  | datetime
  | timedelta
  | literal
  | enum
  | isInstance
  | isSubclass
  | callable
  | uuid
  | url
  | multiHostUrl
  | complex
  | missingSentinel
  | list
  | set
  | frozenset
  | generator
  | tuple
  | dict
  | functionBefore
  | functionAfter
  | functionWrap
  | functionPlain
  | default
  | nullable
  | union
  | taggedUnion
  | chain
  | laxOrStrict
  | jsonOrPython
  | typedDict
  | typedDictField
  | modelFields
  | modelField
  | model
  | dataclassArgs
  | dataclassField
  | dataclass
  | arguments
  | argumentsParameter
  | call
  | computedField
  | customError
  | json
  | definitions
  | definitionRef
  | plain
  | format
  | toStr
  | includeExcludeSequence
  | includeExcludeDict
deriving DecidableEq, Repr

namespace Kind

def all : List Kind :=
  [.any, .none, .bool, .int, .float, .decimal, .str, .bytes, .date, .time, .datetime,
   .timedelta, .literal, .enum, .isInstance, .isSubclass, .callable, .uuid, .url,
   .multiHostUrl, .complex, .missingSentinel, .list, .set, .frozenset, .generator, .tuple,
   .dict, .functionBefore, .functionAfter, .functionWrap, .functionPlain, .default, .nullable,
   .union, .taggedUnion, .chain, .laxOrStrict, .jsonOrPython, .typedDict, .typedDictField,
   .modelFields, .modelField, .model, .dataclassArgs, .dataclassField, .dataclass, .arguments,
   .argumentsParameter, .call, .computedField, .customError, .json, .definitions,
   .definitionRef, .plain, .format, .toStr, .includeExcludeSequence, .includeExcludeDict]

/-- The tag by which nodes name the kind. -/
def tag : Kind → String
  | .any => "any"
  | .none => "none"
  | .bool => "bool"
  | .int => "int"
  | .float => "float"
  | .decimal => "decimal"
  | .str => "str"
  | .bytes => "bytes"
  | .date => "date"
  | .time => "time"
  | .datetime => "datetime"
  | .timedelta => "timedelta"
  | .literal => "literal"
  | .enum => "enum"
  | .isInstance => "is-instance"
  | .isSubclass => "is-subclass"
  | .callable => "callable"
  | .uuid => "uuid"
  | .url => "url"
  | .multiHostUrl => "multi-host-url"
  | .complex => "complex"
  | .missingSentinel => "missing-sentinel"
  | .list => "list"
  | .set => "set"
  | .frozenset => "frozenset"
  | .generator => "generator"
  | .tuple => "tuple"
  | .dict => "dict"
  | .functionBefore => "function-before"
  | .functionAfter => "function-after"
  | .functionWrap => "function-wrap"
  | .functionPlain => "function-plain"
  | .default => "default"
  | .nullable => "nullable"
  | .union => "union"
  | .taggedUnion => "tagged-union"
  | .chain => "chain"
  | .laxOrStrict => "lax-or-strict"
  | .jsonOrPython => "json-or-python"
  | .typedDict => "typed-dict"
  | .typedDictField => "typed-dict-field"
  | .modelFields => "model-fields"
  | .modelField => "model-field"
  | .model => "model"
  | .dataclassArgs => "dataclass-args"
  | .dataclassField => "dataclass-field"
  | .dataclass => "dataclass"
  | .arguments => "arguments"
  | .argumentsParameter => "arguments-parameter"
  | .call => "call"
  | .computedField => "computed-field"
  | .customError => "custom-error"
  | .json => "json"
  | .definitions => "definitions"
  | .definitionRef => "definition-ref"
  | .plain => "plain"
  | .format => "format"
  | .toStr => "to-string"
  | .includeExcludeSequence => "include-exclude-sequence"
  | .includeExcludeDict => "include-exclude-dict"

/-- The kind of a tag; none for a tag outside the catalog. -/
def ofTag? (tag : String) : Option Kind := all.find? fun kind => kind.tag == tag

/-- The kind's name in capitalised words, as records of kinds are written. -/
def name (kind : Kind) : String := String.ofList (capitalise true kind.tag.toList)
where
  /-- Drops the hyphens and starts each word with a capital letter. -/
  capitalise (atStart : Bool) : List Char → List Char
    | [] => []
    | c :: rest =>
      if c = '-' then capitalise true rest
      else (if atStart then c.toUpper else c) :: capitalise false rest

/-- The kind of a name in capitalised words. -/
def ofName? (name : String) : Option Kind := all.find? fun kind => kind.name == name

theorem mem_all (kind : Kind) : kind ∈ all := by cases kind <;> decide

theorem nodup_tags : (all.map tag).Nodup := by decide

theorem eq_of_nodup_map_tag {a b : Kind} : ∀ {kinds : List Kind}, (kinds.map tag).Nodup →
    a ∈ kinds → b ∈ kinds → a.tag = b.tag → a = b
  | [], _, ha, _, _ => by cases ha
  | kind :: kinds, hn, ha, hb, h => by
    obtain ⟨hk, hn⟩ := List.nodup_cons.1 hn
    rcases List.mem_cons.1 ha with ea | ha <;> rcases List.mem_cons.1 hb with eb | hb
    · rw [ea, eb]
    · exact absurd (List.mem_map.2 ⟨b, hb, by rw [← h, ea]⟩) hk
    · exact absurd (List.mem_map.2 ⟨a, ha, by rw [h, eb]⟩) hk
    · exact eq_of_nodup_map_tag hn ha hb h

theorem tag_injective {a b : Kind} (h : a.tag = b.tag) : a = b :=
  eq_of_nodup_map_tag nodup_tags (mem_all a) (mem_all b) h

theorem tag_of_ofTag? {tag : String} {kind : Kind} (h : ofTag? tag = some kind) :
    kind.tag = tag := by
  have := List.find?_some h
  simpa using this

@[simp]
theorem ofTag?_tag (kind : Kind) : ofTag? kind.tag = some kind := by
  cases h : ofTag? kind.tag with
  | none =>
    rw [ofTag?] at h
    have := List.find?_eq_none.1 h kind (mem_all kind)
    simp at this
  | some other => rw [tag_injective (tag_of_ofTag? h)]

end Kind

end SchemaGraph
