/-
# `Selector.Names` — the pseudo-classes and pseudo-elements that are known

Names are compared in lower case.  A name with a vendor's mark in front is
accepted wherever a known name of that form is.
-/
import StyleTree.Text.Keyword

namespace StyleTree.Selector.Names

/-- Pseudo-classes without an argument. -/
def plainClasses : List String :=
  ["active", "any-link", "autofill", "blank", "checked", "closed", "current", "default",
   "defined", "disabled", "empty", "enabled", "first-child", "first-of-type",
   "focus", "focus-visible", "focus-within", "fullscreen", "future", "hover",
   "in-range", "indeterminate", "invalid", "last-child", "last-of-type", "link",
   "local-link", "modal", "muted", "only-child", "only-of-type", "open", "optional",
   "out-of-range", "past", "paused", "picture-in-picture", "placeholder-shown", "playing",
   "popover-open", "read-only", "read-write", "required", "root", "scope", "seeking",
   "stalled", "target", "target-within", "user-invalid", "user-valid", "valid", "visited",
   "volume-locked", "host"]

/-- Pseudo-classes that take a list of selectors. -/
def matchingClasses : List String := ["is", "not", "where"]

/-- Pseudo-classes that count children and may take a list of selectors behind `of`. -/
def filteringClasses : List String := ["nth-child", "nth-last-child"]

/-- Pseudo-classes that only count. -/
def countingClasses : List String := ["nth-of-type", "nth-last-of-type"]

/-- Pseudo-classes that take any argument but an empty one. -/
def rawClasses : List String := ["dir", "host", "host-context", "lang", "state", "heading"]

/-- Pseudo-elements without an argument. -/
def plainElements : List String :=
  ["after", "backdrop", "before", "cue", "cue-region", "details-content",
   "file-selector-button", "first-letter", "first-line", "grammar-error", "marker",
   "placeholder", "selection", "spelling-error", "target-text", "view-transition"]

/-- Pseudo-elements with an argument. -/
def functionalElements : List String :=
  ["cue", "cue-region", "highlight", "part", "slotted", "view-transition-group",
   "view-transition-image-pair", "view-transition-new", "view-transition-old"]

/-- Pseudo-elements that may be written with one colon. -/
def singleColonElements : List String := ["after", "before", "first-letter", "first-line"]

/-- The marks of vendors. -/
def vendorMarks : List String := ["-webkit-", "-moz-", "-ms-", "-o-"]

def isVendor (name : String) : Bool :=
  vendorMarks.any (Text.beginsWith · name)

end StyleTree.Selector.Names
