import ObjLet.Code.Instruction

/-!
# Code sequences

The sequences of instructions that generated code is made of, and the layout of memory that they
rely on.

A frame, from high to low addresses, is the control link (the `fp` of the caller), the last to the
first argument, the access link at `fp` (the frame or the object around the function), the return
address at `fp - 1` and the locals from `fp - 2` downwards. Access links lead from a frame to the
frames around it.

A function value is two words: the frame it was declared in, and one word below its code address.

An object is known by the address of the word that holds the address of its dispatch table; its
fields lie below. A method runs with the object as its access link, so a field is reached like a
variable of the scope around the method.
-/

namespace ObjLet

namespace Code

/-- Push the base of the frame or object that is `hops` scopes out. -/
def frame (hops : Nat) : Code := .load .fp :: List.replicate hops .loadWord

/-- Pop an address and push the word at an offset from it. -/
def loadAt (offset : Int) : Code := [.push offset, .arith .add, .loadWord]

/-- Push a value of a number of words that lies `hops` scopes out. -/
def loadValue (hops : Nat) (offset : Int) (words : Nat) : Code :=
  frame hops ++ loadAt offset ++ if words = 2 then frame hops ++ loadAt (offset - 1) else []

/-! ## Choices -/

/-- Pop two values and push `equal` or `different`. -/
def select (equalLabel endLabel : Label) (different equal : Int) : Code :=
  [.branchEqual equalLabel, .push different, .branch endLabel,
    .place equalLabel, .push equal, .place endLabel]

/-- Pop `b`, then `a`, and push whether `a ≤ b`. -/
def lessEqual (trueLabel endLabel : Label) : Code :=
  [.branchLessEqual trueLabel, .push 0, .branch endLabel,
    .place trueLabel, .push 1, .place endLabel]

/-- Evaluate `right` only if `left` is not `decisive`. -/
def shortCircuit (decidedLabel endLabel : Label) (decisive : Int) (left right : Code) : Code :=
  left ++ [.push decisive, .branchEqual decidedLabel] ++
    right ++ [.push decisive, .branchEqual decidedLabel] ++
    [.push (1 - decisive), .branch endLabel, .place decidedLabel, .push decisive, .place endLabel]

/-- Evaluate one of two branches by a condition; the code of the other one is jumped over. -/
def cond (thenLabel endLabel : Label) (condition thenCode elseCode : Code) : Code :=
  condition ++ [.push 1, .branchEqual thenLabel] ++
    elseCode ++ [.branch endLabel, .place thenLabel] ++ thenCode ++ [.place endLabel]

/-! ## Heap -/

/-- Move the heap pointer up by a word. -/
def heapBump : Code := [.load .hp, .push 1, .arith .add, .store .hp]

/-- Pop a word to the top of the heap. -/
def heapStore : Code := .load .hp :: .storeWord :: heapBump

/-- Move `fieldWords` words from the stack into a new object and push its address. The address of
the dispatch table is read from `tableAddress`. -/
def newObject (fieldWords : Nat) (tableAddress : Int) : Code :=
  (List.replicate fieldWords heapStore).flatten ++
    [.push tableAddress, .loadWord, .load .hp, .storeWord, .load .hp] ++ heapBump

/-- Write a dispatch table to the heap and push the address of its first word. -/
def dispatchTable (entries : List Label) : Code :=
  .load .hp :: entries.flatMap fun entry => .pushLabel entry :: heapStore

/-! ## Calls -/

/-- With the address of an object on the stack, call the method in a slot on it. -/
def dispatchCall (slot : Int) : Code :=
  [.store .tm, .load .tm, .load .tm, .loadWord] ++ loadAt slot ++ [.jump]

/-- With a frame on the stack, call the function value that lies at an offset in it. -/
def valueCall (offset : Int) : Code :=
  [.store .tm, .load .tm] ++ loadAt offset ++ [.load .tm] ++ loadAt (offset - 1) ++ [.jump]

/-- What a function does first: set up its frame, with the access link on top of the stack. -/
def prologue : Code := [.copyFp, .load .ra]

/-- Move the control link over the last parameter word and put the frame word of the result, which
is on the stack, into its place. -/
def returnFrameWord (paramWords : Nat) : Code :=
  let controlLink : Int := paramWords + 1
  [.load .fp, .push controlLink, .arith .add, .loadWord,
    .load .fp, .push (controlLink - 1), .arith .add, .storeWord,
    .load .fp, .push controlLink, .arith .add, .storeWord]

/-- What a function does last: leave its frame with the result on top of the stack. The code address
of a function result travels in `tm` like every result, its frame word in place of the control
link. -/
def epilogue (paramWords localWords : Nat) (returnsFunction : Bool) : Code :=
  .store .tm ::
    (if returnsFunction then returnFrameWord paramWords else []) ++
    List.replicate localWords .pop ++ [.store .ra] ++
    List.replicate (if returnsFunction then paramWords else paramWords + 1) .pop ++
    [.store .fp, .load .tm, .load .ra, .jump]

end Code

end ObjLet
