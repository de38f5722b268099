import LogicBoard.Logged

namespace LogicBoard

namespace Text
variable {first second text : String}

/-- The message begins with the text. -/
def Opens (message text : String) : Prop := ∃ rest, message = text ++ rest

theorem Opens.refl (text : String) : Opens text text := ⟨"", String.append_empty.symm⟩

theorem Opens.append (opens : Opens first text) : Opens (first ++ second) text := by
  obtain ⟨rest, rfl⟩ := opens
  exact ⟨rest ++ second, String.append_assoc⟩

/-- The text stands somewhere in the message. -/
def Mentions (message text : String) : Prop := ∃ before after, message = before ++ text ++ after

theorem Mentions.last (first text : String) : Mentions (first ++ text) text := ⟨first, "", String.append_empty.symm⟩

theorem Mentions.append (mentions : Mentions first text) : Mentions (first ++ second) text := by
  obtain ⟨before, after, rfl⟩ := mentions
  exact ⟨before, after ++ second, String.append_assoc⟩

theorem Mentions.between (first text second : String) : Mentions (first ++ text ++ second) text :=
  (last first text).append

/-- The messages of some kinds of data tell what they are about. Each begins with words for its kind, kinds with other
words have other messages, and the message mentions all that the data carry. -/
structure Tells {α : Type} (message opening : α → String) (carried : α → List String) : Prop where
  opens : ∀ a, Opens (message a) (opening a)
  apart : ∀ a b, message a = message b → opening a = opening b
  mentions : ∀ a, ∀ text ∈ carried a, Mentions (message a) text

/-- None of the texts is the beginning of another one. -/
def PrefixFree (openings : List String) : Prop :=
  ∀ first ∈ openings, ∀ second ∈ openings, first.toList <+: second.toList → first = second

instance (openings : List String) : Decidable (PrefixFree openings) :=
  inferInstanceAs (Decidable (∀ first ∈ openings, ∀ second ∈ openings, _ → first = second))

theorem tells_of_prefixFree {α : Type} {message opening : α → String} {carried : α → List String}
    (openings : List String) (free : PrefixFree openings) (listed : ∀ a, opening a ∈ openings)
    (opens : ∀ a, Opens (message a) (opening a)) (mentions : ∀ a, ∀ text ∈ carried a, Mentions (message a) text) :
    Tells message opening carried where
  opens := opens
  mentions := mentions
  apart := by
    intro a b same
    obtain ⟨restA, shapeA⟩ := opens a
    obtain ⟨restB, shapeB⟩ := opens b
    have startsA : (opening a).toList <+: (message a).toList := ⟨restA.toList, by rw [shapeA, String.toList_append]⟩
    have startsB : (opening b).toList <+: (message a).toList :=
      ⟨restB.toList, by rw [same, shapeB, String.toList_append]⟩
    obtain forward | backward := List.prefix_or_prefix_of_prefix startsA startsB
    · exact free _ (listed a) _ (listed b) forward
    · exact (free _ (listed b) _ (listed a) backward).symm

end Text
open Text

namespace Json

def Shape.opening : Shape → String
  | text => "a string"
  | sequence => "a sequence"
  | int32 => "i32"
  | pair => "an array of length 2"
  | record _ _ => "struct "

def Shape.carried : Shape → List String
  | record name _ => [name]
  | _ => []

def Shape.openings : List String := ["a string", "a sequence", "i32", "an array of length 2", "struct "]

theorem Shape.name_tells : Tells name opening carried := by
  have listed (shape : Shape) : openings[shape.ctorIdx]? = some shape.opening := by cases shape <;> rfl
  refine tells_of_prefixFree openings (by decide) (fun shape => List.mem_of_getElem? (listed shape)) ?_ ?_
  · intro shape
    cases shape with
    | record => exact .append (.refl _)
    | _ => exact .refl _
  · intro shape
    cases shape with
    | record => exact List.forall_mem_singleton.mpr (.last _ _)
    | _ => nofun

def Found.opening : Found → String
  | null => "null"
  | boolean _ => "boolean `"
  | integer _ => "integer `"
  | float _ _ => "floating point `"
  | text _ => "string "
  | sequence => "sequence"
  | map => "map"

def Found.carried : Found → List String
  | boolean value => [if value then "true" else "false"]
  | integer value => [.ofList (signed value)]
  | float _ value => [.ofList value.text]
  | text value => [.ofList (quoted value.toList)]
  | null | sequence | map => []

def Found.openings : List String :=
  ["null", "boolean `", "integer `", "floating point `", "string ", "sequence", "map"]

theorem Found.name_tells : Tells name opening carried := by
  have listed (found : Found) : openings[found.ctorIdx]? = some found.opening := by cases found <;> rfl
  refine tells_of_prefixFree openings (by decide) (fun found => List.mem_of_getElem? (listed found)) ?_ ?_
  · intro found
    cases found with
    | null | sequence | map => exact .refl _
    | text => exact .append (.refl _)
    | boolean | integer => exact .append (.append (.refl _))
    | float => exact .append (.append (.append (.refl _)))
  · intro found
    cases found with
    | null | sequence | map => nofun
    | text => exact List.forall_mem_singleton.mpr (.last _ _)
    | boolean | integer | float => exact List.forall_mem_singleton.mpr (.between _ _ _)

/-- The words at the beginning of a message. Where a fault carries nothing they are the whole of it. -/
def Fault.opening : Fault → String
  | wrongType _ _ => "invalid type: "
  | outOfRange _ _ => "invalid value: "
  | tooShort _ _ => "invalid length "
  | missingField _ => "missing field `"
  | duplicateField _ => "duplicate field `"
  | fault => fault.message

def Fault.carried : Fault → List String
  | wrongType found expected => [found.name, expected.name]
  | outOfRange value expected => [(Found.integer value).name, expected.name]
  | tooShort length expected => [toString length, expected.lengthName]
  | missingField name | duplicateField name => [name]
  | _ => []

/-- What faults of each kind begin with. -/
def Fault.openings : List String := [
  "EOF while parsing a value", "EOF while parsing a list", "EOF while parsing a string", "EOF while parsing an object",
  "expected value", "expected ident", "expected `:`", "expected `,` or `]`", "expected `,` or `\x7d`",
  "key must be a string", "trailing comma", "trailing characters", "invalid number", "number out of range",
  "invalid escape", "unexpected end of hex escape", "lone leading surrogate in hex escape",
  "control character (\\u0000-\\u001F) found while parsing a string", "invalid type: ", "invalid value: ",
  "invalid length ", "missing field `", "duplicate field `"]

theorem Fault.message_tells : Tells message opening carried := by
  have listed (fault : Fault) : openings[fault.ctorIdx]? = some fault.opening := by cases fault <;> rfl
  refine tells_of_prefixFree openings (by decide +kernel) (fun fault => List.mem_of_getElem? (listed fault)) ?_ ?_
  · intro fault
    cases fault with
    | wrongType | outOfRange | tooShort => exact .append (.append (.append (.refl _)))
    | missingField | duplicateField => exact .append (.append (.refl _))
    | _ => exact .refl _
  · intro fault
    cases fault with
    | wrongType | outOfRange | tooShort =>
      exact List.forall_mem_cons.mpr ⟨.append (.between _ _ _), List.forall_mem_singleton.mpr (.last _ _)⟩
    | missingField | duplicateField => exact List.forall_mem_singleton.mpr (.between _ _ _)
    | _ => nofun

end Json

namespace BoardError

/-- The words at the beginning of a message. They are alike for an unknown component and an unknown label, which names
with blanks in them can make one message of. -/
def opening : BoardError → String
  | missingField _ => "placement line is missing the "
  | invalidNumber _ _ => "invalid number '"
  | invalidLevel _ => "invalid pin level '"
  | dumpTypeMismatch _ _ => "placement has dump type "
  | unknownDumpType _ => "no chip registered for dump type "
  | unknownComponentType _ => "unknown component type: "
  | unknownComponent _ | unknownPinLabel _ _ => "component "
  | unknownPin _ => "pin handle "
  | incompleteChipEntry _ => "chip entry '"
  | unreadable _ _ => "failed to read config file '"
  | malformed _ => "failed to parse circuit description: "

def carried : BoardError → List String
  | missingField field => [field.name]
  | invalidNumber field token => [token, field.name]
  | invalidLevel token => [token]
  | dumpTypeMismatch expected found => [toString found, toString expected]
  | unknownDumpType dumpType => [toString dumpType]
  | unknownComponentType name | unknownComponent name | incompleteChipEntry name => [name]
  | unknownPinLabel component label => [component, label]
  | unknownPin id => [toString id]
  | unreadable path failure => [path, failure.message]
  | malformed fault => [fault.message]

def openings : List String := [
  "placement line is missing the ", "invalid number '", "invalid pin level '", "placement has dump type ",
  "no chip registered for dump type ", "unknown component type: ", "component ", "component ", "pin handle ",
  "chip entry '", "failed to read config file '", "failed to parse circuit description: "]

theorem message_opens (error : BoardError) : Opens error.message error.opening := by
  cases error with
  | unknownComponent => exact .append ⟨"not found: ", rfl⟩
  | unknownDumpType | unknownComponentType | malformed => exact .append (.refl _)
  | missingField | invalidLevel | unknownPin | incompleteChipEntry => exact .append (.append (.refl _))
  | invalidNumber | dumpTypeMismatch | unreadable => exact .append (.append (.append (.refl _)))
  | unknownPinLabel => exact .append (.append (.append (.append (.refl _))))

theorem message_mentions (error : BoardError) : ∀ text ∈ error.carried, Mentions error.message text := by
  cases error with
  | unknownDumpType | unknownComponentType | unknownComponent | malformed =>
    exact List.forall_mem_singleton.mpr (.last _ _)
  | missingField | invalidLevel | unknownPin | incompleteChipEntry =>
    exact List.forall_mem_singleton.mpr (.between _ _ _)
  | invalidNumber | dumpTypeMismatch | unreadable =>
    exact List.forall_mem_cons.mpr ⟨.append (.between _ _ _), List.forall_mem_singleton.mpr (.last _ _)⟩
  | unknownPinLabel =>
    exact List.forall_mem_cons.mpr ⟨.append (.append (.between _ _ _)), List.forall_mem_singleton.mpr (.between _ _ _)⟩

theorem opening_listed (error : BoardError) : error.opening ∈ openings := by
  have listed : openings[error.ctorIdx]? = some error.opening := by cases error <;> rfl
  exact List.mem_of_getElem? listed

theorem message_tells : Tells message opening carried :=
  tells_of_prefixFree openings (by decide) opening_listed message_opens message_mentions

example : (unknownComponent "a has no pin labelled 'b'").message = (unknownPinLabel "not found: a" "b").message := by
  decide +kernel

end BoardError

namespace Failure

/-- An overflow carries nothing, and its message is made of the words for its kind alone. -/
def opening : Failure → String
  | refused error => error.opening
  | overflow operation => operation.message

def carried : Failure → List String
  | refused error => error.carried
  | overflow _ => []

def openings : List String := BoardError.openings ++ [
  "attempt to add with overflow", "attempt to subtract with overflow", "attempt to multiply with overflow",
  "attempt to shift right with overflow"]

theorem message_tells : Tells message opening carried := by
  refine tells_of_prefixFree openings (by decide +kernel) ?_ ?_ ?_
  · intro failure
    cases failure with
    | refused error => exact List.mem_append_left _ error.opening_listed
    | overflow operation =>
      have listed : openings[12 + operation.ctorIdx]? = some operation.message := by cases operation <;> rfl
      exact List.mem_of_getElem? listed
  · intro failure
    cases failure with
    | refused error => exact error.message_opens
    | overflow => exact .refl _
  · intro failure
    cases failure with
    | refused error => exact error.message_mentions
    | overflow => nofun

end Failure

theorem Field.name_inj {a b : Field} (same : a.name = b.name) : a = b := by
  cases a <;> cases b <;> first | rfl | exact absurd same (by decide)

/-- Two failures have different messages, unless one of them is in the words of the system. -/
theorem ReadFailure.message_inj {a b : ReadFailure} (ownA : ∀ words, a ≠ system words)
    (ownB : ∀ words, b ≠ system words) (same : a.message = b.message) : a = b := by
  cases a with
  | system words => exact absurd rfl (ownA words)
  | _ =>
    cases b with
    | system words => exact absurd rfl (ownB words)
    | _ => first | rfl | exact absurd same (by decide)

end LogicBoard
