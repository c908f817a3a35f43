import WrongStack.Streaming.Builder

/-!
# A reducer of streams

What a stream says about blocks, and a reducer that is left two choices. Its blocks are read off the stream from left
to right, each with what the rest of the stream still adds to it.
-/

namespace WrongStack.Streaming

open Lib Json

/-! ## Signals -/

/-- What is added to a thinking block. -/
inductive Addition
  | text (text : JsString)
  | signature (signature : JsString)

/-- What an event says about blocks. -/
inductive Signal
  | text (text : JsString)
  | tool (id : JsString)
  /-- A tool stops, which ends a block of text. -/
  | cut
  | start (providerMeta : Option Fields)
  | add (addition : Addition)
  | stop
  | other

def StreamEvent.signal {ν : Type} : StreamEvent JsString ν → Signal
  | .textDelta text => .text text
  | .toolUseStart id _ => .tool id
  | .toolUseStop .. => .cut
  | .thinkingStart providerMeta => .start providerMeta
  | .thinkingDelta text => .add (.text text)
  | .thinkingSignature signature => .add (.signature signature)
  | .thinkingStop => .stop
  | _ => .other

namespace ThinkingEntry

def take (e : ThinkingEntry) (providerMeta : Option Fields) : ThinkingEntry :=
  { e with providerMeta := providerMeta.or e.providerMeta }

def add (e : ThinkingEntry) : Addition → ThinkingEntry
  | .text text => { e with textBuf := e.textBuf ++ text }
  | .signature signature => { e with signature := some signature }

/-- The entry is not put into the content. -/
def Blank (e : ThinkingEntry) : Prop := e.textBuf = [] ∧ shownSignature e.signature = none

instance (e : ThinkingEntry) : Decidable e.Blank := inferInstanceAs (Decidable (_ ∧ _))

end ThinkingEntry

/-! ## The reducer -/

structure Policy where
  /-- A thinking block that no event has started leaves the block of text open. -/
  keepsText : Bool
  /-- The start of a thinking block takes the one that is open. -/
  takesOpen : Bool

structure Draft where
  texts : List JsString := []
  text : Option Nat := none
  thoughts : List ThinkingEntry := []
  thought : Option Nat := none
  order : List BlockRef := []

namespace Draft

def openThought (d : Draft) (e : ThinkingEntry) (text : Option Nat) : Draft :=
  { d with
    text
    thoughts := d.thoughts ++ [e]
    thought := some d.thoughts.length
    order := d.order ++ [.thinking d.thoughts.length] }

def step (P : Policy) (d : Draft) : Signal → Draft
  | .text t =>
      match d.text with
      | some i => { d with texts := d.texts.modify i (· ++ t) }
      | none =>
          { d with texts := d.texts ++ [t], text := some d.texts.length, order := d.order ++ [.text d.texts.length] }
  | .tool id => { d with text := none, order := d.order ++ [.tool id] }
  | .cut => { d with text := none }
  | .start m =>
      match d.thought with
      | some i =>
          if P.takesOpen then
            { d with text := none, thoughts := d.thoughts.modify i (·.take m), order := d.order ++ [.thinking i] }
          else d.openThought { providerMeta := m } none
      | none => d.openThought { providerMeta := m } none
  | .add x =>
      match d.thought with
      | some i => { d with thoughts := d.thoughts.modify i (·.add x) }
      | none => d.openThought (ThinkingEntry.add {} x) (if P.keepsText then d.text else none)
  | .stop => { d with thought := none }
  | .other => d

def run (P : Policy) (d : Draft) (es : List Signal) : Draft := es.foldl (step P) d

end Draft

/-! ## Blocks -/

abbrev Block := BlockRef × ContentBlock

def showText (i : Nat) (t : JsString) : List Block := if t = [] then [] else [(.text i, .text t)]

def showThought (i : Nat) (e : ThinkingEntry) : List Block :=
  if e.Blank then []
  else [(.thinking i, .thinking e.textBuf (shownSignature e.signature) (shownMeta e.providerMeta))]

def showTool (tools : JsMap JsString ToolEntry) (id : JsString) : List Block :=
  match tools.get? id with
  | some tb => [(.tool id, .toolUse id tb.name (inputOrEmpty tb.input) (shownMeta tb.providerMeta))]
  | none => []

namespace Draft

def showRef (tools : JsMap JsString ToolEntry) (d : Draft) : BlockRef → List Block
  | .text i => showText i ((d.texts[i]?).getD [])
  | .thinking i =>
      match d.thoughts[i]? with
      | some e => showThought i e
      | none => []
  | .tool id => showTool tools id

/-- The blocks in their order. -/
def blocks (tools : JsMap JsString ToolEntry) (d : Draft) : List Block := d.order.flatMap (d.showRef tools)

end Draft

/-! ## What is to come -/

/-- What becomes of the open thinking block. -/
def grow (P : Policy) : List Signal → ThinkingEntry → ThinkingEntry
  | [], e => e
  | .add x :: es, e => grow P es (e.add x)
  | .start m :: es, e => if P.takesOpen then grow P es (e.take m) else e
  | .stop :: _, e => e
  | _ :: es, e => grow P es e

/-- What becomes of the open block of text; `thinking` if a thinking block is open beside it. -/
def growText (P : Policy) (thinking : Bool) : List Signal → JsString → JsString
  | [], x => x
  | .text t :: es, x => growText P thinking es (x ++ t)
  | .add _ :: es, x => if thinking || P.keepsText then growText P true es x else x
  | .stop :: es, x => growText P false es x
  | .other :: es, x => growText P thinking es x
  | _ :: _, x => x

/-- Where the reducer is: the next indices, whether a block of text is open, and the open thinking block. -/
structure Cursor where
  texts : Nat := 0
  thoughts : Nat := 0
  text : Bool := false
  held : Option (Nat × ThinkingEntry) := none

namespace Cursor

/-- After a new thinking block. -/
def opened (c : Cursor) (e : ThinkingEntry) (text : Bool) : Cursor :=
  { c with thoughts := c.thoughts + 1, text, held := some (c.thoughts, e) }

end Cursor

/-- The blocks that are still to come. -/
def rest (P : Policy) (tools : JsMap JsString ToolEntry) : Cursor → List Signal → List Block
  | _, [] => []
  | c, .text t :: es =>
      if c.text then rest P tools c es
      else showText c.texts (growText P c.held.isSome es t) ++ rest P tools { c with texts := c.texts + 1, text := true } es
  | c, .tool id :: es => showTool tools id ++ rest P tools { c with text := false } es
  | c, .cut :: es => rest P tools { c with text := false } es
  | c, .start m :: es =>
      match c.held with
      | some (i, e) =>
          if P.takesOpen then
            showThought i (grow P es (e.take m)) ++ rest P tools { c with text := false, held := some (i, e.take m) } es
          else
            showThought c.thoughts (grow P es { providerMeta := m }) ++
              rest P tools (c.opened { providerMeta := m } false) es
      | none =>
          showThought c.thoughts (grow P es { providerMeta := m }) ++
            rest P tools (c.opened { providerMeta := m } false) es
  | c, .add x :: es =>
      match c.held with
      | some (i, e) => rest P tools { c with held := some (i, e.add x) } es
      | none =>
          showThought c.thoughts (grow P es (ThinkingEntry.add {} x)) ++
            rest P tools (c.opened (ThinkingEntry.add {} x) (c.text && P.keepsText)) es
  | c, .stop :: es => rest P tools { c with held := none } es
  | c, .other :: es => rest P tools c es

/-! ## The blocks of a run -/

namespace Draft

/-- Everything is in the arrays. -/
structure Valid (d : Draft) : Prop where
  text : ∀ i, d.text = some i → i < d.texts.length
  thought : ∀ i, d.thought = some i → i < d.thoughts.length
  textRef : ∀ i, .text i ∈ d.order → i < d.texts.length
  thoughtRef : ∀ i, .thinking i ∈ d.order → i < d.thoughts.length

def cursor (d : Draft) : Cursor where
  texts := d.texts.length
  thoughts := d.thoughts.length
  text := d.text.isSome
  held := d.thought.bind fun i => d.thoughts[i]?.map (i, ·)

/-- The open blocks with what they become. -/
def grown (P : Policy) (d : Draft) (es : List Signal) : Draft :=
  { d with
    texts := match d.text with
      | some i => d.texts.modify i (growText P d.thought.isSome es)
      | none => d.texts
    thoughts := match d.thought with
      | some i => d.thoughts.modify i (grow P es)
      | none => d.thoughts }

end Draft

end WrongStack.Streaming
