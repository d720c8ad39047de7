import UrlRouting.CommandLine.Command

/-!
The program: it runs a command line and prints what the command leaves behind.
-/

open UrlRouting UrlRouting.CommandLine

def main (args : List String) : IO UInt32 := do
  match (CommandLine.run [] (args.map String.toList)).run Table.empty with
  | .ok report _ =>
    for line in report.output do IO.println (String.ofList line)
    for line in report.errors do IO.eprintln (String.ofList line)
    return UInt32.ofNat (report.code.getD 0)
  | .error fault _ =>
    IO.eprintln (String.ofList fault.message)
    return 1
