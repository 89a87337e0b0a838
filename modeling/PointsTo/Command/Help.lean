/-! What the command says about itself. -/
namespace PointsTo.Command

def versionText : String := "pta 0.1.0\n"

/-- How a flag is written, with its description in lines, both short and in detail. -/
structure FlagHelp where
  usage : String
  short : List String
  detailed : List String := short

/-- The flags in the order of their names. -/
def flagHelps : List FlagHelp :=
  [{ usage := "    --context-depth <context-depth>"
     short := ["The context depth limit for a context-sensitive pointer analysis. Defaults to 1."] },
   { usage := "    --context-type <context-type>"
     short := ["The kind of context elements. [possible values: callsite, cs, object, obj, function,",
       "func]"]
     detailed := ["The kind of context elements.", "",
       "[possible values: callsite, cs, object, obj, function, func]"] },
   { usage := "    --dump-call-graph <call-graph-output>"
     short := ["Dump the call graph in DOT format to the output file."] },
   { usage := "    --dump-pts <pts-output>"
     short := ["Dump points-to results to the output file."] },
   { usage := "    --dump-stats"
     short := ["Dump the statistics of the analysis results."] },
   { usage := "    --entry <entry>"
     short := ["An entry method, as `Class.method`, a method name or a file name."]
     detailed :=
       ["May be given several times. Without entries the module code of every file is analysed."] },
   { usage := "-h, --help"
     short := ["Print help information"] },
   { usage := "    --scale <analysis-scale>"
     short := ["Analyse the whole program or each entry method on its own. [possible values: whole-",
       "program, method-level]"]
     detailed := ["Analyse the whole program or each entry method on its own.", "",
       "[possible values: whole-program, method-level]"] },
   { usage := "-V, --version"
     short := ["Print version information"] }]

/-- The lines about a flag; descriptions are indented. -/
def FlagHelp.lines (h : FlagHelp) (detailed : Bool) : List String :=
  ("    " ++ h.usage) ::
    (if detailed then h.detailed else h.short).map ("            " ++ ·)

def inputHelp (detailed : Bool) : String :=
  "    <INPUT>..." ++ (if detailed then "\n            " else "    ") ++
    "The scene file to be analyzed."

/-- How the command is called. -/
def helpText (detailed : Bool) : String :=
  versionText ++ "\nUSAGE:\n    pta [OPTIONS] SCENE\n\nARGS:\n" ++ inputHelp detailed ++
    "\n\nOPTIONS:\n" ++
    "\n\n".intercalate (flagHelps.map fun h => "\n".intercalate (h.lines detailed)) ++ "\n"

end PointsTo.Command
