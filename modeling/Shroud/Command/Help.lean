import Shroud.Command.Line

/-! # Help

What the compiler says about its own command line.
-/

namespace Shroud.Command.Topic

def about : Topic → String
  | top => "Compile privacy-annotated contracts into public contracts and circuits"
  | compile => "Compile a source unit and write the results to a directory"
  | check => "Run name resolution and all checks without generating code"
  | info => "Show the circuit sizes of every function"
  | help => "Print this message or the help of the given subcommand(s)"

def usage : Topic → String
  | top => "Usage: zkayc [OPTIONS] <COMMAND>"
  | compile => "Usage: zkayc compile [OPTIONS] <INPUT>"
  | check => "Usage: zkayc check [OPTIONS] <INPUT>"
  | info => "Usage: zkayc info [OPTIONS] <INPUT>"
  | help => "Usage: zkayc help [COMMAND]..."

def commands : List String :=
  ["Commands:",
    "  compile  " ++ about compile,
    "  check    " ++ about check,
    "  info     " ++ about info,
    "  help     " ++ about help]

/-- What has to follow the name of a command, or may follow it. -/
def arguments : Topic → List String
  | top => commands
  | help => ["Arguments:", "  [COMMAND]...  Print help for the subcommand(s)"]
  | _ => ["Arguments:", "  <INPUT>  Path to the parsed source unit (JSON)"]

/-- Options with short texts stand on the line of their text. -/
def flagLines : List String :=
  ["Options:", "  -v, --verbose  Log every compiler pass", "  -h, --help     Print help"]

def verboseLines : List String := ["  -v, --verbose", "          Log every compiler pass"]

def settingLines : List String :=
  ["      --crypto-backend <CRYPTO_BACKEND>",
    "          Encryption backend (dummy, dummy-hom, rsa-oaep, rsa-pkcs1.5, ecdh-aes, " ++
      "ecdh-chaskey, paillier, elgamal)",
    "      --hash-threshold <HASH_THRESHOLD>",
    "          Hash the public circuit arguments above this count",
    "  -h, --help",
    "          Print help"]

def configLines : List String :=
  ["      --config <CONFIG>",
    "          Compiler options (JSON), defaults are used for missing fields"]

def optionLines : Topic → List String
  | help => []
  | top | check => flagLines
  | compile =>
    ["Options:", "  -o, --output <OUTPUT>", "          Output directory [default: zkay_out]"] ++
      verboseLines ++
      ["      --force",
        "          Overwrite an output directory compiled with different options"] ++
      configLines ++ settingLines
  | info => "Options:" :: configLines ++ verboseLines ++ settingLines

/-- The help text, line by line. -/
def helpLines (t : Topic) : List String :=
  [t.about, "", t.usage, ""] ++ t.arguments ++
    if t.optionLines.isEmpty then [] else "" :: t.optionLines

end Shroud.Command.Topic
