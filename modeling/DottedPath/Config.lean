/-!
# Settings of a scanner

A scanner remembers at most `cacheSize` steps of paths, and refuses to write to an index of a list
above `maxIndex` if there is one. Settings that come from outside are integers, and a negative one
is refused (`Config.ofSettings`).
-/

set_option autoImplicit false
set_option relaxedAutoImplicit false

namespace DottedPath

structure Config where
  cacheSize : Nat := 256
  maxIndex : Option Nat := none
  deriving DecidableEq, Inhabited

/-- A setting that is negative. -/
inductive SettingFault
  | cacheSize (given : Int)
  | maxIndex (given : Int)
  deriving DecidableEq, Inhabited

/-- Settings as a caller gives them. A cache size that is absent is the default one. -/
structure Settings where
  cacheSize : Option Int := none
  maxIndex : Option Int := none
  deriving Inhabited

namespace Config

/-- The settings, unless one is negative. The size of the memory is looked at first. -/
def ofSettings (settings : Settings) : Except SettingFault Config :=
  let default : Config := {}
  let cacheSize : Int := settings.cacheSize.getD default.cacheSize
  if cacheSize < 0 then .error (.cacheSize cacheSize)
  else
    match settings.maxIndex with
    | none => .ok { cacheSize := cacheSize.toNat }
    | some maxIndex =>
      if maxIndex < 0 then .error (.maxIndex maxIndex)
      else .ok { cacheSize := cacheSize.toNat, maxIndex := some maxIndex.toNat }

/-- The text of the settings. -/
def render (config : Config) : String :=
  let limit := match config.maxIndex with
    | none => "None"
    | some n => toString n
  "ScannerConfig(cache_size=" ++ toString config.cacheSize ++ ", max_index=" ++ limit ++ ")"

end Config

namespace SettingFault

def message : SettingFault → String
  | cacheSize given => "cache_size must be >= 0, got " ++ toString given
  | maxIndex given => "max_index must be >= 0 or None, got " ++ toString given

end SettingFault

end DottedPath
