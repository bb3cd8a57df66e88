import Shroud.Files
import Shroud.Json.Reader
import Shroud.Json.Writer
import Shroud.Settings.Basic

/-! # Manifests

A manifest stands beside the output of a compilation and records what is needed to compile the
same contract again.
-/

namespace Shroud

structure Manifest where
  version : String
  scheme : ProvingScheme
  backend : Backend
  settings : Settings
  contractFile : String
  pkiFile : String
  verifiers : List String
deriving DecidableEq, Repr

namespace Manifest

def fileName : String := "manifest.json"

/-- The version of the compiler. -/
def compilerVersion : String := "0.1.0"

inductive Error where
  | file (fault : Files.Error)
  /-- The text is no manifest. -/
  | unreadable
  /-- The settings disagree with the back ends recorded beside them. -/
  | inconsistent
  | version (recorded : String)
  | backend (wanted recorded : Backend)
  | scheme (wanted recorded : ProvingScheme)
  | settings
deriving DecidableEq, Repr

def new (s : Settings) (contractFile : String) (verifiers : List String) : Manifest where
  version := compilerVersion
  scheme := s.scheme
  backend := s.backend
  settings := s
  contractFile := contractFile
  pkiFile := s.pkiName ++ ".sol"
  verifiers := verifiers

def fields : List String :=
  ["zkay-version", "proving-scheme", "crypto-backend", "zkay-options", "contract-file", "pki-lib",
    "verifier-names"]

def ofJson? (j : Json) : Option Manifest := do
  let field ← j.record? fields
  return {
    version := ← (field "zkay-version").required Json.str?
    scheme := ← (field "proving-scheme").required ProvingScheme.ofJson?
    backend := ← (field "crypto-backend").required Backend.ofJson?
    settings := ← (field "zkay-options").required Settings.ofJson?
    contractFile := ← (field "contract-file").required Json.str?
    pkiFile := ← (field "pki-lib").required Json.str?
    verifiers := ← (field "verifier-names").required (Json.list? Json.str?) }

def toJson (m : Manifest) : Json :=
  .obj [("zkay-version", .str m.version), ("proving-scheme", m.scheme.toJson),
    ("crypto-backend", m.backend.toJson), ("zkay-options", m.settings.toJson),
    ("contract-file", .str m.contractFile), ("pki-lib", .str m.pkiFile),
    ("verifier-names", .ofStrings m.verifiers)]

/-- The text of the manifest's file. -/
def save (m : Manifest) : String := m.toJson.pretty

/-- Reads a manifest from what its file gives. -/
def load (content : Except Files.Error String) : Except Error Manifest :=
  match content with
  | .error fault => .error (.file fault)
  | .ok text =>
    match (Json.parse? text).bind ofJson? with
    | none => .error .unreadable
    | some m =>
      if m.settings.backend ≠ m.backend ∨ m.settings.scheme ≠ m.scheme then .error .inconsistent
      else .ok m

/-- Whether compiling with some settings gives the recorded contract again. -/
def checkCompatible (m : Manifest) (s : Settings) : Except Error Unit :=
  if m.version ≠ compilerVersion then .error (.version m.version)
  else if m.backend ≠ s.backend then .error (.backend s.backend m.backend)
  else if m.scheme ≠ s.scheme then .error (.scheme s.scheme m.scheme)
  else if m.settings ≠ s then .error .settings
  else .ok ()

end Manifest

end Shroud
