import LiquidityNet.Application
import LiquidityNet.Wire.Genesis

/-!
# Configuration

The configuration names the environment to run in and the file with the genesis. Both it and the
genesis are files; here a file is its path and its contents, which are missing if the file is.
-/

namespace LiquidityNet

structure Config where
  environment : Environment
  logFilter : String
  genesisPath : Option String

namespace Config

structure File where
  path : String
  contents : Option String

instance : Wire Config where
  toJson c :=
    .object [
      ("environment", toJson c.environment),
      ("log_filter", toJson c.logFilter),
      ("genesis_path", toJson c.genesisPath)]
  ofJson? j := do
    let r ← Json.Fields.ofJson? ["environment", "log_filter", "genesis_path"] j
    return {
      environment := ← r.getD? "environment" .mainnet
      logFilter := ← r.getD? "log_filter" "info"
      genesisPath := ← r.getD? "genesis_path" none }

def load (file : File) : Except String Config :=
  match file.contents with
  | none => .error ("failed to read config " ++ file.path)
  | some text =>
    match (Json.read? text).bind ofJson? with
    | none => .error ("invalid config " ++ file.path)
    | some c => .ok c

end Config

def Genesis.load (file : Config.File) : Except String Genesis :=
  match file.contents with
  | none => .error ("failed to read genesis file " ++ file.path)
  | some text =>
    match Genesis.read? text with
    | none => .error ("invalid genesis file " ++ file.path)
    | some g => .ok g

namespace Application

def new (settings : Settings) : Application := ⟨.empty settings 0, []⟩

def seeded (settings : Settings) (g : Genesis) : Except String Application :=
  match (new settings).run g.apply with
  | (.ok none, app) => .ok app
  | (.ok (some problem), _) => .error problem.summary
  | (.error (.refused e), _) => .error e.message
  | (.error (.fault f), _) => .error f.text

def ofConfig (c : Config) (genesis : Option Config.File) : Except String Application :=
  let settings := Settings.ofEnvironment c.environment
  match genesis with
  | none => .ok (new settings)
  | some file => Genesis.load file >>= seeded settings

end Application

end LiquidityNet
