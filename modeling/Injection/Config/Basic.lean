import Injection.Config.LogFilter
import Injection.Point.Context
import Injection.Toml.Decode
import Injection.Toml.Parse

/-!
The configuration of the tool, read from a TOML document with the tables `locals`, `resolve` and
`logging`.
-/

namespace Injection

/-- A named set of rules for the return of local variables. -/
inductive LocalsProfile where
  | standard
  | compatible
deriving DecidableEq, Inhabited

namespace LocalsProfile

def name : LocalsProfile → String
  | standard => "default"
  | compatible => "compatible"

def ofName? (name : String) : Option LocalsProfile :=
  [standard, compatible].find? (·.name = name)

def settings : LocalsProfile → LocalsSettings
  | standard => .standard
  | compatible => .compatible

end LocalsProfile

/-- A profile, and settings given in place of its own. -/
structure LocalsConfig where
  profile : LocalsProfile
  bogusTop : Option Bool
  exposedOnLoad : Option Bool
  exposedOnStore : Option Bool
  choppedInstructions : Option Nat
  choppedFrames : Option Nat
  trimmedInstructions : Option Nat
  trimmedFrames : Option Nat
deriving DecidableEq, Inhabited

namespace LocalsConfig

def standard : LocalsConfig := ⟨.standard, none, none, none, none, none, none, none⟩

def names : List String := "profile" :: LocalsSettings.names

/-- The settings of the profile, except for those given. -/
def settings (c : LocalsConfig) : LocalsSettings :=
  let base := c.profile.settings
  { bogusTop := c.bogusTop.getD base.bogusTop
    exposedOnLoad := c.exposedOnLoad.getD base.exposedOnLoad
    exposedOnStore := c.exposedOnStore.getD base.exposedOnStore
    choppedInstructions := c.choppedInstructions <|> base.choppedInstructions
    choppedFrames := c.choppedFrames <|> base.choppedFrames
    trimmedInstructions := c.trimmedInstructions <|> base.trimmedInstructions
    trimmedFrames := c.trimmedFrames <|> base.trimmedFrames }

/-- Reads the table `locals`. In an array every field has to be given. -/
def ofToml? (v : Toml.Value) : Option LocalsConfig := do
  let fields ← v.fields? names
  match v with
  | .array _ => guard (fields.all Option.isSome)
  | _ => pure ()
  let flag := Toml.Value.fieldOr none (fun v => v.toBool?.map some) fields
  let limit := Toml.Value.fieldOr none (fun v => (v.toNat? (2 ^ 32)).map some) fields
  return {
    profile := ← Toml.Value.fieldOr .standard (·.toName?.bind LocalsProfile.ofName?) fields 0
    bogusTop := ← flag 1
    exposedOnLoad := ← flag 2
    exposedOnStore := ← flag 3
    choppedInstructions := ← limit 4
    choppedFrames := ← limit 5
    trimmedInstructions := ← limit 6
    trimmedFrames := ← limit 7 }

def toJson (c : LocalsConfig) : Json :=
  .object (names.zip
    [.string c.profile.name, Json.option .bool c.bogusTop, Json.option .bool c.exposedOnLoad,
      Json.option .bool c.exposedOnStore, Json.option Json.nat c.choppedInstructions,
      Json.option Json.nat c.choppedFrames, Json.option Json.nat c.trimmedInstructions,
      Json.option Json.nat c.trimmedFrames])

end LocalsConfig

/-- How far the companion of a field access is looked for. -/
structure ResolveConfig where
  defaultFuzz : Nat
  maxFuzz : Nat
deriving DecidableEq, Inhabited

namespace ResolveConfig

def standard : ResolveConfig :=
  ⟨ResolverOptions.standard.defaultFuzz, ResolverOptions.standard.maxFuzz⟩

def names : List String := ["default_fuzz", "max_fuzz"]

def ofToml? (v : Toml.Value) : Option ResolveConfig := do
  let fields ← v.fields? names
  return {
    defaultFuzz := ← Toml.Value.fieldOr standard.defaultFuzz (Toml.Value.toNat? (2 ^ 32)) fields 0
    maxFuzz := ← Toml.Value.fieldOr standard.maxFuzz (Toml.Value.toNat? (2 ^ 32)) fields 1 }

def toJson (c : ResolveConfig) : Json :=
  .object (names.zip [Json.nat c.defaultFuzz, Json.nat c.maxFuzz])

end ResolveConfig

/-- What is logged, and whether records are written as JSON. -/
structure LoggingConfig where
  level : String
  json : Bool
deriving DecidableEq, Inhabited

namespace LoggingConfig

def standard : LoggingConfig := ⟨"warn", false⟩

def names : List String := ["level", "json"]

def ofToml? (v : Toml.Value) : Option LoggingConfig := do
  let fields ← v.fields? names
  return {
    level := ← Toml.Value.fieldOr standard.level Toml.Value.toText? fields 0
    json := ← Toml.Value.fieldOr standard.json Toml.Value.toBool? fields 1 }

def toJson (c : LoggingConfig) : Json := .object (names.zip [.string c.level, .bool c.json])

def filter (c : LoggingConfig) : LogFilter := .ofLevel c.level

end LoggingConfig

inductive ConfigError where
  | unreadable (path cause : String)
  /-- The text is not TOML, or does not say what can be configured. -/
  | malformed
  | noFuzz
  | fuzzAboveMax (fuzz max : Nat)
deriving DecidableEq, Inhabited

namespace ConfigError

def message : ConfigError → String
  | unreadable path cause => "failed to read config file " ++ path ++ ": " ++ cause
  | malformed => "failed to parse toml config: not a configuration"
  | noFuzz => "invalid config: resolve.max_fuzz must be at least 1"
  | fuzzAboveMax fuzz max =>
    "invalid config: resolve.default_fuzz (" ++ toString fuzz ++ ") exceeds resolve.max_fuzz (" ++
      toString max ++ ")"

end ConfigError

structure Config where
  locals : LocalsConfig
  resolve : ResolveConfig
  logging : LoggingConfig
deriving DecidableEq, Inhabited

namespace Config

def standard : Config := ⟨.standard, .standard, .standard⟩

def names : List String := ["locals", "resolve", "logging"]

def ofToml? (v : Toml.Value) : Option Config := do
  let fields ← v.fields? names
  return {
    locals := ← Toml.Value.fieldOr .standard LocalsConfig.ofToml? fields 0
    resolve := ← Toml.Value.fieldOr .standard ResolveConfig.ofToml? fields 1
    logging := ← Toml.Value.fieldOr .standard LoggingConfig.ofToml? fields 2 }

/-- Refuses a default that the limit does not allow. -/
def validate (c : Config) : Except ConfigError Config :=
  if c.resolve.maxFuzz = 0 then .error .noFuzz
  else if c.resolve.defaultFuzz > c.resolve.maxFuzz then
    .error (.fuzzAboveMax c.resolve.defaultFuzz c.resolve.maxFuzz)
  else .ok c

def parse (text : String) : Except ConfigError Config :=
  match (Toml.parse? text).bind fun ms => ofToml? (.table .header ms) with
  | some c => c.validate
  | none => .error .malformed

def toJson (c : Config) : Json :=
  .object (names.zip [c.locals.toJson, c.resolve.toJson, c.logging.toJson])

def resolverOptions (c : Config) : ResolverOptions :=
  ⟨c.resolve.defaultFuzz, c.resolve.maxFuzz, c.locals.settings⟩

end Config

end Injection
