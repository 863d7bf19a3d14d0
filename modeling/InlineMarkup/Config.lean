import InlineMarkup.Markup.Error

/-!
# InlineMarkup.Config

What the code written for markup looks like, and how faults in the markup are
handled.
-/

namespace InlineMarkup

/-- What is written for markup, and how strictly it is read. -/
structure Config where
  /-- The function called for an element. -/
  element : String
  /-- The function called for a component. -/
  component : String
  /-- The function wrapped around a text, if any. -/
  text : Option String
  /-- One step of indentation. -/
  indent : String
  /-- How faults are handled. -/
  mode : Mode
  /-- Whether a pragma in the source is honoured. -/
  pragma : Bool
deriving DecidableEq

namespace Config

/-- The settings of those who set nothing. -/
def standard : Config where
  element := "h"
  component := "h"
  text := none
  indent := "\t"
  mode := .lenient
  pragma := true

instance : Inhabited Config := ⟨standard⟩

/-- The function wrapped around a text; an empty name means that there is none. -/
def textFactory? (config : Config) : Option String := config.text.filter fun name => name != ""

/-- Calls `factory` for elements and components alike, and leaves texts bare. -/
def withFactory (config : Config) (factory : String) : Config :=
  { config with element := factory, component := factory, text := none }

end Config

end InlineMarkup
