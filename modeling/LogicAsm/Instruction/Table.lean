import LogicAsm.Instruction.Shape
import LogicAsm.Sorting

/-!
# The instructions of a logic processor

The table of all instructions, with the operands that each takes.  The order is that of the
processor's own groups; look-up by opcode does not depend on it, because no opcode stands twice.
-/

namespace LogicAsm.Instruction

/-! ### Selectors with many variants -/

/-- What `op` computes, each with its operands. -/
def operationVariants : List (String × String) :=
  [("add", ">result a b"), ("sub", ">result a b"), ("mul", ">result a b"), ("div", ">result a b"),
   ("idiv", ">result a b"), ("mod", ">result a b"), ("pow", ">result a b"),
   ("equal", ">result a b"), ("notEqual", ">result a b"), ("land", ">result a b"),
   ("lessThan", ">result a b"), ("lessThanEq", ">result a b"), ("greaterThan", ">result a b"),
   ("greaterThanEq", ">result a b"), ("strictEqual", ">result a b"), ("shl", ">result a b"),
   ("shr", ">result a b"), ("or", ">result a b"), ("and", ">result a b"), ("xor", ">result a b"),
   ("not", ">result x"), ("max", ">result a b"), ("min", ">result a b"), ("angle", ">result a b"),
   ("angleDiff", ">result a b"), ("len", ">result a b"), ("noise", ">result a b"),
   ("abs", ">result x"), ("log", ">result x"), ("log10", ">result x"), ("floor", ">result x"),
   ("ceil", ">result x"), ("sqrt", ">result x"), ("rand", ">result x"), ("sin", ">result x"),
   ("cos", ">result x"), ("tan", ">result x"), ("asin", ">result x"), ("acos", ">result x"),
   ("atan", ">result x")]

def drawVariants : List (String × String) :=
  [("clear", "red green blue"), ("color", "red green blue alpha"), ("col", "color"),
   ("stroke", "width"), ("line", "x1 y1 x2 y2"), ("rect", "x y width height"),
   ("lineRect", "x y width height"), ("poly", "x y sides radius rotation"),
   ("linePoly", "x y sides radius rotation"), ("triangle", "x1 y1 x2 y2 x3 y3"),
   ("image", "x y image size rotation"), ("print", "x y !alignment"), ("translate", "x y"),
   ("scale", "x y"), ("rotate", "degrees"), ("reset", "")]

def jumpVariants : List (String × String) :=
  [("equal", "x y"), ("notEqual", "x y"), ("lessThan", "x y"), ("lessThanEq", "x y"),
   ("greaterThan", "x y"), ("greaterThanEq", "x y"), ("strictEqual", "x y"), ("always", "")]

def unitVariants : List (String × String) :=
  [("idle", ""), ("stop", ""), ("move", "x y"), ("approach", "x y radius"), ("pathfind", "x y"),
   ("autoPathfind", ""), ("boost", "enabled"), ("target", "x y shoot"), ("targetp", "unit shoot"),
   ("itemDrop", "to amount"), ("itemTake", "from item amount"), ("payDrop", ""),
   ("payTake", "takeUnits"), ("payEnter", ""), ("mine", "x y"), ("flag", "value"),
   ("build", "x y block rotation config"), ("getBlock", "x y >type >building >floor"),
   ("within", "x y radius >result"), ("unbind", "")]

def locateVariants : List (String × String) :=
  [("ore", "_group _enemy ore >x >y >found"),
   ("building", "!group enemy _ore >x >y >found >building"),
   ("spawn", "_group _enemy _ore >x >y >found >building"),
   ("damaged", "_group _enemy _ore >x >y >found >building")]

def fetchVariants : List (String × String) :=
  [("unit", ">result team index unitType"), ("unitCount", ">result team _ unitType"),
   ("player", ">result team index"), ("playerCount", ">result team"),
   ("core", ">result team index"), ("coreCount", ">result team"),
   ("build", ">result team index blockType"), ("buildCount", ">result team _ blockType")]

def ruleVariants : List (String × String) :=
  [("currentWaveTime", "seconds"), ("waveTimer", "enabled"), ("waves", "enabled"),
   ("wave", "waveNumber"), ("waveSpacing", "seconds"), ("waveSending", "enabled"),
   ("attackMode", "enabled"), ("enemyCoreBuildRadius", "radius"), ("dropZoneRadius", "radius"),
   ("unitCap", "amount"), ("mapArea", "_ x y width height"), ("lighting", "enabled"),
   ("canGameOver", "canIt"), ("ambientLight", "color"), ("solarMultiplier", "multiplier"),
   ("dragMultiplier", "multiplier"), ("ban", "content"), ("unban", "content"),
   ("buildSpeed", "multiplier team"), ("unitHealth", "multiplier team"),
   ("unitBuildSpeed", "multiplier team"), ("unitMineSpeed", "multiplier team"),
   ("unitCost", "multiplier team"), ("unitDamage", "multiplier team"),
   ("blockHealth", "multiplier team"), ("blockDamage", "multiplier team"),
   ("rtsMinWeight", "weight team"), ("rtsMinSquad", "size team")]

def markerVariants : List (String × String) :=
  [("remove", "id"), ("world", "id bool"), ("minimap", "id bool"), ("autoscale", "id bool"),
   ("pos", "id x y"), ("endPos", "id x y"), ("drawLayer", "id layer"), ("color", "id color"),
   ("radius", "id radius"), ("stroke", "id width"), ("rotation", "id angle"),
   ("shape", "id sides fill outline"), ("flushText", "id fetch"), ("fontSize", "id size"),
   ("textHeight", "id height"), ("labelFlags", "id background outline"), ("texture", "id name"),
   ("textureSize", "id width height"), ("posi", "id index x y"), ("uvi", "id index x y"),
   ("colori", "id index color")]

/-! ### Groups of instructions -/

def inputOutput : List Shape :=
  [.fixed "read" ">output target address",
   .fixed "write" "input target address",
   .selected "draw" "" drawVariants,
   .fixed "print" "value",
   .fixed "printchar" "value",
   .fixed "format" "value"]

def blockControl : List Shape :=
  [.fixed "drawflush" "target",
   .fixed "printflush" "target",
   .fixed "getlink" ">result index",
   .selected "control" ""
     [("enabled", "building enabled"), ("shoot", "building x y shoot"),
      ("shootp", "building unit shoot"), ("config", "building value"), ("color", "building color")],
   .fixed "radar" "!filter1 !filter2 !filter3 !sort building order >output",
   .fixed "sensor" ">output target property"]

def operations : List Shape :=
  [.fixed "set" ">variable value",
   .selected "op" "" operationVariants,
   .selected "lookup" ""
     [("block", ">result id"), ("unit", ">result id"), ("item", ">result id"),
      ("liquid", ">result id"), ("team", ">result id")],
   .fixed "packcolor" ">result red green blue alpha",
   .fixed "unpackcolor" ">red >green >blue >alpha value"]

def flowControl : List Shape :=
  [.fixed "noop" "",
   .fixed "wait" "seconds",
   .fixed "stop" "",
   .fixed "end" "",
   .selected "jump" ":destination" jumpVariants]

def unitControl : List Shape :=
  [.fixed "ubind" "unit",
   .selected "ucontrol" "" unitVariants,
   .fixed "uradar" "!filter1 !filter2 !filter3 !sort _ order >output",
   .selected "ulocate" "" locateVariants]

def worldProcessors : List Shape :=
  [.selected "getblock" ""
     [("floor", ">result x y"), ("ore", ">result x y"), ("block", ">result x y"),
      ("building", ">result x y")],
   .selected "setblock" ""
     [("floor", "to x y"), ("ore", "to x y"), ("block", "to x y team rotation")],
   .fixed "spawn" "unitType x y rotation team >result",
   .selected "status" ""
     [("true", "!effect unit"), ("false", "!effect unit duration")],
   .fixed "weathersense" ">result weather",
   .fixed "weatherset" "weather active",
   .fixed "spawnwave" "x y natural",
   .selected "setrule" "" ruleVariants,
   .selected "message" ""
     [("notify", "_ >success"), ("announce", "seconds >success"), ("toast", "seconds >success"),
      ("mission", "_ >success")],
   .selected "cutscene" ""
     [("pan", "x y speed"), ("zoom", "level"), ("stop", "")],
   .fixed "effect" "!type x y rotation color data",
   .fixed "explosion" "team x y radius damage air ground pierce effect",
   .fixed "setrate" "rate",
   .selected "fetch" "" fetchVariants,
   .fixed "sync" "variable",
   .fixed "getflag" ">output flagName",
   .fixed "setflag" "flagName enabled",
   .fixed "setprop" "property target value",
   .selected "playsound" ""
     [("false", "id volume pitch pan _x _y limit"), ("true", "id volume pitch _pan x y limit")],
   .selected "setmarker" "" markerVariants,
   .selected "makemarker" ""
     [("shapeText", "id x y replace"), ("point", "id x y replace"), ("shape", "id x y replace"),
      ("text", "id x y replace"), ("line", "id x y replace"), ("texture", "id x y replace"),
      ("quad", "id x y replace")],
   .fixed "printlocale" "key"]

def table : List Shape :=
  inputOutput ++ blockControl ++ operations ++ flowControl ++ unitControl ++ worldProcessors

def shape? (opcode : Text) : Option Shape := table.find? fun shape => shape.name == opcode

def isKnown (opcode : Text) : Bool := (shape? opcode).isSome

/-- All opcodes, in alphabetical order. -/
def names : List Text :=
  Sorting.sort (fun a b => !decide (b < a)) (table.map (·.name))

end LogicAsm.Instruction
