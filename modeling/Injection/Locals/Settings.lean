import Injection.Arithmetic
import Injection.Json.Decode

/-!
Settings for the return of variables that a stack-map frame removed.
-/

namespace Injection

/-- Which removed variables may return, and within how many instructions and frames; a limit is
inclusive, and without one there is no bound. -/
structure LocalsSettings where
  /-- Trimmed variables return where a frame names their slot unset. -/
  bogusTop : Bool
  /-- A load brings back the variables in the slots below it. -/
  exposedOnLoad : Bool
  /-- A store brings back the variables in the slots below it. -/
  exposedOnStore : Bool
  choppedInstructions : Option Nat
  choppedFrames : Option Nat
  trimmedInstructions : Option Nat
  trimmedFrames : Option Nat
deriving DecidableEq, Inhabited

namespace LocalsSettings

def standard : LocalsSettings where
  bogusTop := true
  exposedOnLoad := true
  exposedOnStore := true
  choppedInstructions := none
  choppedFrames := some 1
  trimmedInstructions := none
  trimmedFrames := none

/-- Nothing returns. -/
def compatible : LocalsSettings where
  bogusTop := false
  exposedOnLoad := false
  exposedOnStore := false
  choppedInstructions := none
  choppedFrames := none
  trimmedInstructions := none
  trimmedFrames := none

def names : List String :=
  ["bogus_top", "exposed_on_load", "exposed_on_store", "chopped_insn_threshold",
    "chopped_frame_threshold", "trimmed_insn_threshold", "trimmed_frame_threshold"]

/-- Reads settings; those left out are the standard ones. -/
def ofJson? (j : Json) : Option LocalsSettings := do
  let fields ← j.fields? names
  let flag := fun default => Json.fieldOr default Json.toBool? fields
  let limit := fun default => Json.fieldOr default (Json.toOption? (Json.toNat? (2 ^ 32))) fields
  return {
    bogusTop := ← flag standard.bogusTop 0
    exposedOnLoad := ← flag standard.exposedOnLoad 1
    exposedOnStore := ← flag standard.exposedOnStore 2
    choppedInstructions := ← limit standard.choppedInstructions 3
    choppedFrames := ← limit standard.choppedFrames 4
    trimmedInstructions := ← limit standard.trimmedInstructions 5
    trimmedFrames := ← limit standard.trimmedFrames 6 }

def toJson (s : LocalsSettings) : Json :=
  .object (names.zip
    [.bool s.bogusTop, .bool s.exposedOnLoad, .bool s.exposedOnStore,
      Json.option Json.nat s.choppedInstructions, Json.option Json.nat s.choppedFrames,
      Json.option Json.nat s.trimmedInstructions, Json.option Json.nat s.trimmedFrames])

end LocalsSettings

end Injection
