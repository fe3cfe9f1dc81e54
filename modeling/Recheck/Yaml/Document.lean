import Recheck.Yaml.Token
import Recheck.Yaml.Value

/-!
# YAML documents

`Yaml.parse?` reads a text that holds at most one document. It refuses a mapping with a key twice,
an alias without its anchor or inside it, collections nested too deep and aliases that unfold too
often.
-/

namespace Recheck.Yaml

/-- A value with what it takes to go through it. -/
structure Node where
  value : Value
  /-- How deep collections are nested in it. -/
  height : Nat := 0
  /-- How many aliases are followed in it. -/
  jumps : Nat := 0

/-- A document that is being read. -/
structure Reader where
  tokens : List Token
  /-- The anchored nodes, the latest first; one that is being read has no value yet. -/
  anchors : List (String × Option Node) := []
  /-- What tag handles stand for, the latest first. -/
  handles : List (String × String) := []
  /-- The number of scalars and aliases, and of starts and ends of collections. -/
  events : Nat := 0

namespace Reader

/-- The reader after its next token. -/
def advance (r : Reader) : Reader := { r with tokens := r.tokens.tail }

/-- Whether the next token is one of some tokens. -/
def sees (r : Reader) (tokens : List Token) : Bool := r.tokens.head?.any tokens.contains

/-- The node of a scalar that is left out. -/
def emptyNode (r : Reader) : Node × Reader := (⟨.null, 0, 0⟩, { r with events := r.events + 1 })

/-- The tag that a handle and a suffix make. -/
def tagText? (r : Reader) (handle suffix : String) : Option String :=
  if handle.isEmpty then some suffix
  else
    match r.handles.lookup handle with
    | some stem => some (stem ++ suffix)
    | none =>
      if handle = "!" then some ("!" ++ suffix)
      else if handle = "!!" then some ("tag:yaml.org,2002:" ++ suffix)
      else none

/-- What may precede a node. -/
structure Properties where
  anchor : Option String := none
  tag : Option String := none

/-- Reads an anchor and a tag, in either order. -/
def properties? (r : Reader) : Option (Properties × Reader) :=
  match r.tokens with
  | .anchor name :: .tag handle suffix :: rest =>
    (r.tagText? handle suffix).map fun tag => (⟨some name, some tag⟩, { r with tokens := rest })
  | .tag handle suffix :: .anchor name :: rest =>
    (r.tagText? handle suffix).map fun tag => (⟨some name, some tag⟩, { r with tokens := rest })
  | .anchor name :: rest => some (⟨some name, none⟩, { r with tokens := rest })
  | .tag handle suffix :: rest =>
    (r.tagText? handle suffix).map fun tag => (⟨none, some tag⟩, { r with tokens := rest })
  | _ => some ({}, r)

/-- The node of a sequence. -/
def sequenceNode (items : List Node) : Node where
  value := .sequence (items.map (·.value))
  height := 1 + items.foldl (fun h n => if h < n.height then n.height else h) 0
  jumps := items.foldl (fun j n => j + n.jumps) 0

/-- The node of a mapping, if no key is there twice. -/
def mappingNode? (members : List (Node × Node)) : Option Node :=
  let rec distinct : List (Node × Node) → Bool
    | [] => true
    | m :: rest => !(rest.any fun n => n.1.value.same m.1.value) && distinct rest
  if distinct members then
    let parts := sequenceNode (members.flatMap fun m => [m.1, m.2])
    some { parts with value := .mapping (members.map fun m => (m.1.value, m.2.value)) }
  else none

/-- The node with a tag, which counts if it is not one of the standard. -/
def withTag (tag : Option String) (n : Node) : Node :=
  match tag with
  | some t => if t.toList.head? = some '!' then { n with value := .tagged t n.value } else n
  | none => n

mutual

/-- Reads a node. Block collections count where `block` is set, and a sequence without indentation
where `indentless` is. The number of tokens, times four, is fuel enough. -/
def node? : (fuel : Nat) → (block indentless : Bool) → Reader → Option (Node × Reader)
  | 0, _, _, _ => none
  | fuel + 1, block, indentless, r =>
    match r.tokens with
    | .alias name :: _ =>
      match (r.anchors.lookup name).join with
      | some n =>
        some ({ n with jumps := n.jumps + 1 }, { r.advance with events := r.events + 1 })
      | none => none
    | _ =>
      match r.properties? with
      | none => none
      | some (p, r) =>
        let r :=
          match p.anchor with
          | some name => { r with anchors := (name, none) :: r.anchors }
          | none => r
        match content? fuel block indentless p r with
        | none => none
        | some (n, r) =>
          some (n,
            match p.anchor with
            | some name => { r with anchors := (name, some n) :: r.anchors }
            | none => r)

/-- Reads a node after its properties. -/
def content? :
    (fuel : Nat) → (block indentless : Bool) → Properties → Reader → Option (Node × Reader)
  | 0, _, _, _, _ => none
  | fuel + 1, block, indentless, p, r =>
    let collected (n : Option (Node × Reader)) : Option (Node × Reader) :=
      n.map fun (n, r) => (withTag p.tag n, { r with events := r.events + 2 })
    match r.tokens with
    | .blockEntry :: _ =>
      if indentless then
        collected ((entries? fuel true r).map fun (items, r) => (sequenceNode items, r))
      else if p.anchor.isSome || p.tag.isSome then blankContent? p r
      else none
    | .scalar text plain :: _ =>
      (scalarValue? p.tag text plain).map fun v =>
        (⟨v, 0, 0⟩, { r.advance with events := r.events + 1 })
    | .flowSequenceStart :: _ =>
      collected ((flowItems? fuel true r.advance).map fun (items, r) => (sequenceNode items, r))
    | .flowMappingStart :: _ =>
      collected ((flowMembers? fuel true r.advance).bind fun (members, r) =>
        (mappingNode? members).map fun n => (n, r))
    | .blockSequenceStart :: _ =>
      if block then
        collected ((entries? fuel false r.advance).map fun (items, r) => (sequenceNode items, r))
      else blankContent? p r
    | .blockMappingStart :: _ =>
      if block then
        collected ((members? fuel r.advance).bind fun (members, r) =>
          (mappingNode? members).map fun n => (n, r))
      else blankContent? p r
    | _ => blankContent? p r

/-- The node of properties without content. -/
def blankContent? (p : Properties) (r : Reader) : Option (Node × Reader) :=
  if p.anchor.isSome || p.tag.isSome then
    (scalarValue? p.tag "" (p.tag.all fun t => t.toList.head? = some '!')).map fun v =>
      (⟨v, 0, 0⟩, { r with events := r.events + 1 })
  else none

/-- Reads the entries of a block sequence to its end; one without indentation has no token there. -/
def entries? : (fuel : Nat) → (indentless : Bool) → Reader → Option (List Node × Reader)
  | 0, _, _ => none
  | fuel + 1, indentless, r =>
    match r.tokens with
    | .blockEntry :: _ =>
      let r := r.advance
      let blank :=
        r.sees
          (if indentless then [.blockEntry, .key, .value, .blockEnd] else [.blockEntry, .blockEnd])
      match if blank then some r.emptyNode else node? fuel true false r with
      | none => none
      | some (item, r) =>
        match entries? fuel indentless r with
        | none => none
        | some (items, r) => some (item :: items, r)
    | .blockEnd :: _ => some ([], if indentless then r else r.advance)
    | _ => if indentless then some ([], r) else none

/-- Reads the members of a block mapping to its end. -/
def members? : (fuel : Nat) → Reader → Option (List (Node × Node) × Reader)
  | 0, _ => none
  | fuel + 1, r =>
    if r.sees [.blockEnd] then some ([], r.advance)
    else if !r.sees [.key] then none
    else
      let r := r.advance
      let value? :=
        if r.sees [.key, .value, .blockEnd] then some r.emptyNode else node? fuel true true r
      match value? with
      | none => none
      | some (key, r) =>
        let value? :=
          if r.sees [.value] then
            let r := r.advance
            if r.sees [.key, .value, .blockEnd] then some r.emptyNode else node? fuel true true r
          else some r.emptyNode
        match value? with
        | none => none
        | some (value, r) =>
          match members? fuel r with
          | none => none
          | some (members, r) => some ((key, value) :: members, r)

/-- Reads the items of a flow sequence to its end. -/
def flowItems? : (fuel : Nat) → (first : Bool) → Reader → Option (List Node × Reader)
  | 0, _, _ => none
  | fuel + 1, first, r =>
    if r.sees [.flowSequenceEnd] then some ([], r.advance)
    else if !first && !r.sees [.flowEntry] then none
    else
      let r := if first then r else r.advance
      if r.sees [.flowSequenceEnd] then some ([], r.advance)
      else
        match if r.sees [.key] then flowPair? fuel r.advance else node? fuel false false r with
        | none => none
        | some (item, r) =>
          match flowItems? fuel false r with
          | none => none
          | some (items, r) => some (item :: items, r)

/-- Reads a mapping of one member in a flow sequence. -/
def flowPair? : (fuel : Nat) → Reader → Option (Node × Reader)
  | 0, _ => none
  | fuel + 1, r =>
    let key? :=
      if r.sees [.value, .flowEntry, .flowSequenceEnd] then some r.advance.emptyNode
      else node? fuel false false r
    match key? with
    | none => none
    | some (key, r) =>
      let value? :=
        if r.sees [.value] then
          let r := r.advance
          if r.sees [.flowEntry, .flowSequenceEnd] then some r.emptyNode
          else node? fuel false false r
        else some r.emptyNode
      match value? with
      | none => none
      | some (value, r) =>
        (mappingNode? [(key, value)]).map fun n => (n, { r with events := r.events + 2 })

/-- Reads the members of a flow mapping to its end. -/
def flowMembers? : (fuel : Nat) → (first : Bool) → Reader → Option (List (Node × Node) × Reader)
  | 0, _, _ => none
  | fuel + 1, first, r =>
    if r.sees [.flowMappingEnd] then some ([], r.advance)
    else if !first && !r.sees [.flowEntry] then none
    else
      let r := if first then r else r.advance
      if r.sees [.flowMappingEnd] then some ([], r.advance)
      else
        let marked := r.sees [.key]
        let r := if marked then r.advance else r
        let key? :=
          if marked && r.sees [.value, .flowEntry, .flowMappingEnd] then some r.emptyNode
          else node? fuel false false r
        match key? with
        | none => none
        | some (key, r) =>
          let value? :=
            if marked && r.sees [.value] then
              let r := r.advance
              if r.sees [.flowEntry, .flowMappingEnd] then some r.emptyNode
              else node? fuel false false r
            else some r.emptyNode
          match value? with
          | none => none
          | some (value, r) =>
            match flowMembers? fuel false r with
            | none => none
            | some (members, r) => some ((key, value) :: members, r)

end

/-- The directives before a document: at most one version, and no handle twice. -/
def directives? : (fuel : Nat) → (versioned : Bool) → Reader → Option (Bool × Reader)
  | 0, _, _ => none
  | fuel + 1, versioned, r =>
    match r.tokens with
    | .versionDirective major minor :: _ =>
      if versioned || major != 1 || (minor != 1 && minor != 2) then none
      else directives? fuel true r.advance
    | .tagDirective handle stem :: _ =>
      if (r.handles.lookup handle).isSome then none
      else directives? fuel versioned { r.advance with handles := (handle, stem) :: r.handles }
    | _ => some (versioned || !r.handles.isEmpty, r)

end Reader

/-- The deepest nesting of collections. -/
def maxHeight : Nat := 128

/-- The value of a text. A text without a document is null. -/
def parse? (text : String) : Option Value := do
  let tokens ← tokens? text.toList
  let fuel := 4 * tokens.length + 4
  let (directed, r) ← Reader.directives? fuel false { tokens }
  if r.tokens.isEmpty then if directed then none else some .null
  else
    let started := r.sees [.documentStart]
    if directed && !started then none
    else
      let r := if started then r.advance else r
      let (n, r) ←
        if r.tokens.isEmpty || r.sees [.documentStart, .documentEnd] then some r.emptyNode
        else r.node? fuel true false
      let rest := r.tokens.dropWhile (· == .documentEnd)
      if rest.isEmpty && n.height ≤ maxHeight && n.jumps ≤ 100 * r.events then some n.value
      else none

end Recheck.Yaml
