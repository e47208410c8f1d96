/-! # Usage and help -/
namespace DualEngine.Console

def usage : String :=
  "usage: duet [-h] [--engine \x7binterp,jit,both\x7d] [--emit-ir] [--ast]\n"
    ++ "            [--seed SEED] [--verbose]\n"
    ++ "            [file]\n"

def help : String :=
  usage
    ++ "\nDuet interpreter and LLVM JIT\n"
    ++ "\npositional arguments:\n"
    ++ "  file                  Source file to run as one submission (REPL when\n"
    ++ "                        omitted)\n"
    ++ "\noptions:\n"
    ++ "  -h, --help            show this help message and exit\n"
    ++ "  --engine \x7binterp,jit,both\x7d\n"
    ++ "                        Execution engine (both: run each and compare results)\n"
    ++ "  --emit-ir             Write the LLVM IR of each submission to stderr\n"
    ++ "  --ast                 Print the parsed tree of each submission\n"
    ++ "  --seed SEED           Seed the shared random generator\n"
    ++ "  --verbose             Enable debug logging\n"

end DualEngine.Console
