import InlineMarkup.Unicode.Alphabetic
import InlineMarkup.Unicode.Capital
import InlineMarkup.Unicode.Numeric

/-!
# InlineMarkup.Name

The words that markup and the code around it are made of: identifiers, tag
names and attribute names, and the classes that decide how a name is treated.
-/

namespace InlineMarkup.Name

open Unicode

/-! ## Identifiers -/

/-- Whether an identifier may start with `c`. -/
def isStart (c : Char) : Bool := isAlphabetic c || c == '_' || c == '$'

/-- Whether an identifier may go on with `c`. -/
def isPart (c : Char) : Bool := isAlphabetic c || isNumeric c || c == '_' || c == '$'

theorem isPart_of_isStart {c : Char} (h : isStart c = true) : isPart c = true := by
  simp only [isStart, isPart, Bool.or_eq_true] at *
  grind

/-- Whether a name is an identifier, and so can be written without quotes. -/
def isIdentifier (name : String) : Bool :=
  match name.toList with
  | [] => false
  | c :: rest => isStart c && rest.all isPart

/-! ## Tag names -/

/-- Elements that never have content. -/
def voidElements : List String :=
  ["area", "base", "br", "col", "embed", "hr", "img", "input", "keygen", "link", "meta", "param",
    "source", "track", "wbr"]

/-- Whether `name` names an element that never has content. -/
def isVoid (name : String) : Bool := voidElements.contains name

/-- Whether a tag name refers to a component: it is dotted, or it holds a
capital letter. -/
def isComponent (name : String) : Bool := name.toList.any fun c => c == '.' || isCapital c

/-! ## Attribute names -/

/-- Attributes whose mere presence means `true`. -/
def booleanAttributes : List String :=
  ["allowFullscreen", "async", "autofocus", "autoplay", "checked", "compact", "controls",
    "declare", "default", "defaultChecked", "defaultMuted", "defaultSelected", "defer", "disabled",
    "draggable", "enabled", "formNoValidate", "hidden", "indeterminate", "inert", "isMap",
    "itemScope", "loop", "multiple", "muted", "noHref", "noResize", "noShade", "noValidate",
    "noWrap", "open", "pauseOnExit", "readOnly", "required", "reversed", "scoped", "seamless",
    "selected", "sortable", "spellcheck", "translate", "trueSpeed", "typeMustMatch", "visible"]

/-- A name with its ASCII capitals made small; other letters stay. -/
def foldCase (name : String) : List Char := name.toList.map Char.toLower

/-- Whether `name` is a boolean attribute, in any mix of ASCII cases. -/
def isBooleanAttribute (name : String) : Bool :=
  booleanAttributes.any fun listed => foldCase listed == foldCase name

end InlineMarkup.Name
