import DualEngine.Lowering.Basic

/-! # What generated code calls and refers to outside its module -/
namespace DualEngine.Lowering
open IR

def printf : Signature := ⟨"printf", .i32, [.text], true⟩
def sprintf : Signature := ⟨"sprintf", .i32, [.text, .text], true⟩
def snprintf : Signature := ⟨"snprintf", .i32, [.text, .i64, .text], true⟩
def malloc : Signature := ⟨"malloc", .text, [.i64], false⟩
def strdup : Signature := ⟨"strdup", .text, [.text], false⟩
def strcmp : Signature := ⟨"strcmp", .i32, [.text, .text], false⟩
def randomInt : Signature := ⟨"duet_random", .i32, [], false⟩

def library : List Signature := [printf, sprintf, snprintf, malloc, strdup, strcmp, randomInt]

/-- A byte that says whether the submission has a value. -/
def resultPresent : String := "duet.result.present"

/-- A text and an array that are empty and outlive every module. -/
def emptyText : String := "duet.empty.string"
def emptyArray : String := "duet.empty.array"

end DualEngine.Lowering
