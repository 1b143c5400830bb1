import CompactionLeasing.Settings.Writer

/-!
# The command line

The only command prints the default settings, as a file with settings to begin with.
-/

open CompactionLeasing

def main (args : List String) : IO UInt32 := do
  match args with
  | ["default-config"] =>
    IO.print (Settings.render {})
    return 0
  | _ =>
    IO.eprintln "usage: default-config"
    return 2
