/-
# `Declaration.Words` — the words that values are made of

Units of length, functions that compute numbers and colours, colours with
a name, and functions that stand for a value given elsewhere.
-/
import StyleTree.Text.Keyword

namespace StyleTree.Words

def lengthUnits : List String :=
  ["px", "em", "rem", "ex", "rex", "ch", "rch", "cap", "rcap", "ic", "ric", "lh", "rlh", "vw",
   "vh", "vi", "vb", "vmin", "vmax", "svw", "svh", "lvw", "lvh", "dvw", "dvh", "cqw", "cqh",
   "cqi", "cqb", "cqmin", "cqmax", "cm", "mm", "q", "in", "pt", "pc"]

def timeUnits : List String := ["s", "ms"]

/-- Functions that compute a number, a length or a percentage. -/
def mathFunctions : List String :=
  ["calc", "min", "max", "clamp", "round", "mod", "rem", "abs", "sign", "anchor", "anchor-size"]

def colorFunctions : List String :=
  ["rgb", "rgba", "hsl", "hsla", "hwb", "lab", "lch", "oklab", "oklch", "color", "color-mix",
   "light-dark", "contrast-color", "device-cmyk"]

def colors : List String :=
  ["aqua", "beige", "black", "blue", "brown", "chocolate", "coral", "crimson", "currentcolor",
   "cyan", "darkblue", "darkgreen", "darkred", "fuchsia", "gold", "gray", "green", "grey",
   "indigo", "ivory", "khaki", "lavender", "lightblue", "lightgray", "lightgreen", "lime",
   "magenta", "maroon", "navy", "olive", "orange", "orchid", "pink", "plum", "purple",
   "rebeccapurple", "red", "salmon", "silver", "skyblue", "steelblue", "tan", "teal",
   "tomato", "transparent", "turquoise", "violet", "white", "yellow"]

/-- Functions whose value is known only where the declaration applies. -/
def substitutions : List String := ["var", "env", "attr", "if", "inherit"]

/-- Counter systems that are a single keyword. -/
def counterSystems : List String := ["cyclic", "numeric", "alphabetic", "symbolic", "additive"]

end StyleTree.Words
