import InlineMarkup.Markup.Fragment
import InlineMarkup.Pragma
import InlineMarkup.Render

/-!
# InlineMarkup.Translate

Whole sources: every fragment is replaced by the code written for it, and all
else is kept, character for character.
-/

namespace InlineMarkup

/-- How fragments are turned into code. -/
structure Translator where
  /-- How nodes are made. -/
  maker : NodeMaker
  /-- How the code for the root of a fragment is written. -/
  write : Config → Node → String

namespace Translator

/-- Makes and writes nodes as usual. -/
def plain : Translator := ⟨.plain, fun config node => node.render config⟩

/-- A piece of the source in the output. -/
def writePiece (translator : Translator) (config : Config) : Piece → String
  | .code text => text
  | .markup node => translator.write config node

/-- A source with its fragments replaced, under the settings that hold for it. -/
def translate (translator : Translator) (config : Config) (source : String) :
    Except Error String := do
  let config := config.resolve source
  let pieces ← Fragment.split translator.maker config.mode source
  return String.join (pieces.map (translator.writePiece config))

end Translator

/-- A source with its fragments replaced.  Where strict reading finds a fault,
the source is read leniently, so there is always an answer. -/
def translateAnyway (config : Config) (source : String) : String :=
  match Translator.plain.translate config source with
  | .ok output => output
  | .error _ =>
    match Translator.plain.translate { config with mode := .lenient } source with
    | .ok output => output
    | .error _ => source

end InlineMarkup
