/-!
# The bootstrap script

What every linked program begins with: the global object, the table of packages, method synthesis, the scheduler and
the console.
-/
namespace Linkage.Bootstrap

def lines : List String := [
  "/* Runtime bootstrap shared by every linked program. */",
  "var $global, $module;",
  "if (typeof window !== \"undefined\") \x7b",
  "  $global = window;",
  "\x7d else if (typeof self !== \"undefined\") \x7b",
  "  $global = self;",
  "\x7d else if (typeof global !== \"undefined\") \x7b",
  "  $global = global;",
  "  $global.require = require;",
  "\x7d else \x7b",
  "  $global = this;",
  "\x7d",
  "if ($global === undefined || $global.Array === undefined) \x7b",
  "  throw new Error(\"no global object found\");",
  "\x7d",
  "if (typeof module !== \"undefined\") \x7b",
  "  $module = module;",
  "\x7d",
  "",
  "var $packages = \x7b\x7d, $idCounter = 0;",
  "var $methodSynthesizers = [];",
  "var $addMethodSynthesizer = function(f) \x7b",
  "  if ($methodSynthesizers === null) \x7b",
  "    f();",
  "    return;",
  "  \x7d",
  "  $methodSynthesizers.push(f);",
  "\x7d;",
  "var $synthesizeMethods = function() \x7b",
  "  $methodSynthesizers.forEach(function(f) \x7b f(); \x7d);",
  "  $methodSynthesizers = null;",
  "\x7d;",
  "",
  "var $curGoroutine = \x7b $blk: null, asleep: false, exit: false \x7d;",
  "var $scheduled = [], $schedulerActive = false;",
  "var $runScheduled = function() \x7b",
  "  try \x7b",
  "    var r;",
  "    while ((r = $scheduled.shift()) !== undefined) \x7b",
  "      r();",
  "    \x7d",
  "  \x7d finally \x7b",
  "    $schedulerActive = false;",
  "  \x7d",
  "\x7d;",
  "var $schedule = function(goroutine) \x7b",
  "  if (goroutine.asleep) \x7b",
  "    goroutine.asleep = false;",
  "  \x7d",
  "  $scheduled.push(goroutine);",
  "  if (!$schedulerActive) \x7b",
  "    $schedulerActive = true;",
  "    setTimeout($runScheduled, 0);",
  "  \x7d",
  "\x7d;",
  "var $go = function(fun, args) \x7b",
  "  var $goroutine = function() \x7b",
  "    var rescheduled = false;",
  "    try \x7b",
  "      $curGoroutine = $goroutine;",
  "      var r = fun.apply(undefined, args);",
  "      if (r && r.$blk !== undefined) \x7b",
  "        fun = function() \x7b return r.$blk(); \x7d;",
  "        args = [];",
  "        rescheduled = true;",
  "        return;",
  "      \x7d",
  "      $goroutine.exit = true;",
  "    \x7d finally \x7b",
  "      $curGoroutine = \x7b $blk: null, asleep: false, exit: false \x7d;",
  "      if (rescheduled) \x7b",
  "        $schedule($goroutine);",
  "      \x7d",
  "    \x7d",
  "  \x7d;",
  "  $goroutine.asleep = false;",
  "  $goroutine.exit = false;",
  "  $schedule($goroutine);",
  "\x7d;",
  "",
  "var $buffered = \"\";",
  "var $print = function(s) \x7b",
  "  $buffered += s;",
  "  var nl = $buffered.lastIndexOf(\"\\n\");",
  "  if (nl !== -1) \x7b",
  "    console.log($buffered.substring(0, nl));",
  "    $buffered = $buffered.substring(nl + 1);",
  "  \x7d",
  "\x7d;",
  "var $flushConsole = function() \x7b",
  "  if ($buffered.length !== 0) \x7b",
  "    console.log($buffered);",
  "    $buffered = \"\";",
  "  \x7d",
  "\x7d;"]

/-- The script, each line ended by a newline. -/
def script : String := String.join (lines.map (·.push '\n'))

end Linkage.Bootstrap
