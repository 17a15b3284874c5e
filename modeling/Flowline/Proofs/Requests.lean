import Flowline.Proofs.Action
import Flowline.Proofs.Reading
import Flowline.Tree.Shape

/-! Reading service calls. A call is read in two ways: a statement asks for a request with the whole text of the path
    and the output names, and a value asks for an inline call. The two agree on the command and on the arguments. An
    inline call takes the first name of the path for the service, whatever follows it, and has no output names; so
    the two agree on the whole call exactly when the path is that one name and no output is declared. -/

namespace Flowline

/-! ### The text of a path -/

namespace Tree

/-- Adds what one child of a path stands for. -/
def addChild (text : String) : Child → String
  | .token name => addName text name.value
  | .tree ⟨_, []⟩ => text
  | .tree ⟨_, .token name :: _⟩ => addName text name.value
  | .tree ⟨_, .tree inner :: _⟩ =>
    if inner.tag = "string" then addName text inner.quotedText else text ++ "[" ++ inner.dottedText ++ "]"

theorem addDotted_cons (text : String) (c : Child) (cs : List Child) :
    addDotted text (c :: cs) = addDotted (addChild text c) cs := by
  match c with
  | .token _ | .tree ⟨_, []⟩ | .tree ⟨_, .token _ :: _⟩ => rfl
  | .tree ⟨_, .tree inner :: _⟩ =>
    rw [addDotted, addChild]
    split <;> rfl

theorem prefix_addName (text name : String) : text.toList <+: (addName text name).toList := by
  unfold addName
  split
  · rename_i h
    simp [h]
  · simp [List.append_assoc]

theorem prefix_addChild (text : String) (c : Child) : text.toList <+: (addChild text c).toList := by
  match c with
  | .token _ | .tree ⟨_, .token _ :: _⟩ => exact prefix_addName _ _
  | .tree ⟨_, []⟩ => exact List.prefix_rfl
  | .tree ⟨_, .tree inner :: _⟩ =>
    rw [addChild]
    split
    · exact prefix_addName _ _
    · simp [List.append_assoc]

theorem prefix_addDotted (text : String) (cs : List Child) : text.toList <+: (addDotted text cs).toList := by
  induction cs generalizing text with
  | nil => exact List.prefix_rfl
  | cons c cs ih =>
    rw [addDotted_cons]
    exact (prefix_addChild text c).trans (ih _)

theorem addName_eq_self {text name : String} : addName text name = text ↔ text = "" ∧ name = "" := by
  unfold addName
  by_cases h : text = ""
  · simp [h]
  · rw [if_neg h]
    refine ⟨fun heq => ?_, fun heq => absurd heq.1 h⟩
    simpa using congrArg String.toList heq

end Tree

/-- A child of a path adds nothing to the text so far: it is an empty fragment, or an empty name before any other. -/
def Child.addsNothing (text : String) : Child → Bool
  | .token name => text == "" && name.value == ""
  | .tree ⟨_, []⟩ => true
  | .tree ⟨_, .token name :: _⟩ => text == "" && name.value == ""
  | .tree ⟨_, .tree inner :: _⟩ => inner.tag == "string" && (text == "" && inner.quotedText == "")

namespace Tree

theorem addChild_eq_self {text : String} {c : Child} : addChild text c = text ↔ c.addsNothing text = true := by
  match c with
  | .token _ | .tree ⟨_, .token _ :: _⟩ => simp [addChild, Child.addsNothing, addName_eq_self]
  | .tree ⟨_, []⟩ => simp [addChild, Child.addsNothing]
  | .tree ⟨_, .tree inner :: _⟩ =>
    simp only [addChild, Child.addsNothing]
    by_cases htag : inner.tag = "string"
    · simp [htag, addName_eq_self]
    · rw [if_neg htag]
      refine ⟨fun heq => ?_, fun h => by simp [htag] at h⟩
      simpa using congrArg String.toList heq

/-- The text only grows, so it stays the same exactly if no child adds to it. -/
theorem addDotted_eq_self {text : String} {cs : List Child} :
    addDotted text cs = text ↔ ∀ c ∈ cs, c.addsNothing text = true := by
  induction cs with
  | nil => simp [addDotted]
  | cons c cs ih =>
    rw [addDotted_cons, List.forall_mem_cons, ← ih, ← addChild_eq_self]
    constructor
    · intro heq
      -- the text after the first child lies between the text before it and the text in the end
      have hfirst : addChild text c = text := by
        have hgrown := prefix_addDotted (addChild text c) cs
        rw [heq] at hgrown
        exact String.toList_inj.mp (hgrown.eq_of_length_le (prefix_addChild text c).length_le)
      exact ⟨hfirst, by rwa [hfirst] at heq⟩
    · rintro ⟨hfirst, hrest⟩
      rw [hfirst, hrest]

/-- The path is one name without a dot, and nothing after the name adds to its text. -/
def isPlainName : Tree → Bool
  | ⟨_, .token root :: rest⟩ => !Text.has root.value '.' && rest.all (·.addsNothing root.value)
  | _ => false

theorem isPlainName_iff {path : Tree} {root : Token} (h : path.tokenAt? 0 = some root) :
    path.isPlainName = true ↔ path.dottedText = root.value ∧ Text.has path.dottedText '.' = false := by
  obtain ⟨tag, children⟩ := path
  match children with
  | [] | .tree _ :: _ => simp [tokenAt?, Child.token?] at h
  | .token word :: rest =>
    obtain rfl : word = root := by simpa [tokenAt?, Child.token?] using h
    have htext : dottedText ⟨tag, .token word :: rest⟩ = addDotted word.value rest := by
      rw [dottedText, addDotted, addName, if_pos rfl]
    rw [htext, isPlainName, Bool.and_eq_true, List.all_eq_true, ← addDotted_eq_self, Bool.not_eq_true']
    constructor
    · rintro ⟨hdot, heq⟩
      exact ⟨heq, by rwa [heq]⟩
    · rintro ⟨heq, hdot⟩
      exact ⟨by rwa [heq] at hdot, heq⟩

end Tree

/-! ### Both readings -/

theorem found_eq_ok {α : Type} {x : Except Missing α} {a : α} : (liftM x : Except Malformed α) = .ok a ↔ x = .ok a := by
  cases x with
  | ok b =>
    show Except.ok b = Except.ok a ↔ _
    simp
  | error e =>
    show Except.error _ = Except.ok a ↔ _
    simp

namespace Tree

variable {t : Tree} {v : Value} {r : Request}

theorem child_eq_ok {tag : String} {c : Tree} : t.child tag = .ok c ↔ t.child? tag = some c := by
  unfold child
  split <;> simp_all

theorem tokenAt_eq_ok {i : Nat} {token : Token} : t.tokenAt i = .ok token ↔ t.tokenAt? i = some token := by
  unfold tokenAt
  split <;> simp_all

theorem readCall_eq_ok :
    t.readCall = .ok v ↔ ∃ path root command arguments, t.child? "path" = some path ∧ path.tokenAt? 0 = some root ∧
      t.readCommand = .ok command ∧ fragmentArguments t.children = .ok arguments ∧
      v = .call root.value command none arguments := by
  obtain ⟨tag, children⟩ := t
  rw [readCall, readCallee]
  simp only [except_bind_eq_ok, found_eq_ok, child_eq_ok, tokenAt_eq_ok, pure, Except.pure, Except.ok.injEq]
  constructor
  · rintro ⟨_, ⟨path, hpath, root, hroot, command, hcommand, rfl⟩, arguments, harguments, rfl⟩
    exact ⟨path, root, command, arguments, hpath, hroot, hcommand, harguments, rfl⟩
  · rintro ⟨path, root, command, arguments, hpath, hroot, hcommand, harguments, rfl⟩
    exact ⟨_, ⟨path, hpath, root, hroot, command, hcommand, rfl⟩, arguments, harguments, rfl⟩

theorem readRequest_eq_ok :
    t.readRequest = .ok r ↔ ∃ path command arguments, t.child? "path" = some path ∧ t.readCommand = .ok command ∧
      fragmentArguments t.children = .ok arguments ∧
      r = { name := path.dottedText, command, args := arguments.map .argument,
            output := outputNames? ((t.child? "service_fragment").bind (·.child? "output")) } := by
  rw [readRequest]
  simp only [except_bind_eq_ok, found_eq_ok, child_eq_ok, pure, Except.pure, Except.ok.injEq]
  constructor
  · rintro ⟨path, hpath, command, hcommand, arguments, harguments, rfl⟩
    exact ⟨path, command, arguments, hpath, hcommand, harguments, rfl⟩
  · rintro ⟨path, command, arguments, hpath, hcommand, harguments, rfl⟩
    exact ⟨path, hpath, command, hcommand, arguments, harguments, rfl⟩

/-- A value that starts with a path and has a service fragment is an inline call. -/
theorem readLiteral_eq_readCall {path : Tree} (hpath : t.leadingTree = .ok path) (htag : path.tag = "path")
    (hfragment : (t.child? "service_fragment").isSome = true) : t.readLiteral = t.readCall := by
  obtain ⟨tag, children⟩ := t
  match children with
  | [] | .token _ :: _ => cases hpath
  | .tree item :: rest =>
    obtain rfl : item = path := Except.ok.inj hpath
    have harguments : fragmentArguments (.tree item :: rest) = fragmentArguments rest := by
      rw [fragmentArguments, htag]
      rfl
    rw [readLiteral, if_pos htag, if_pos hfragment, readCall, harguments]

theorem outputNames?_eq_none {output : Option Tree} : outputNames? output = none ↔ output = none := by
  cases output <;> simp [outputNames?]

end Tree

/-! ### Agreement -/

/-- A node that reads as an inline call reads as a request, with the same command and the same arguments. Service and
    output agree too, and the service has no dot, exactly if the path is a plain name and no output is declared: the
    inline call keeps neither what follows the first name nor the output names. Where the path leads, the node is an
    inline call as a value as well. -/
theorem inline_call_read_alike_iff {t path fragment : Tree} {v : Value} (hpath : t.child? "path" = some path)
    (hfragment : t.child? "service_fragment" = some fragment) (hcall : t.readCall = .ok v) :
    ∃ root request arguments, path.tokenAt? 0 = some root ∧ t.readRequest = .ok request ∧
      v = .call root.value request.command none arguments ∧ request.args = arguments.map .argument ∧
      ((v = .call request.name request.command request.output arguments ∧ Text.has request.name '.' = false) ↔
        path.isPlainName = true ∧ fragment.child? "output" = none) ∧
      (t.leadingTree = .ok path → t.readLiteral = .ok v) := by
  obtain ⟨path', root, command, arguments, hpath', hroot, hcommand, harguments, rfl⟩ := Tree.readCall_eq_ok.mp hcall
  obtain rfl : path = path' := Option.some.inj (hpath.symm.trans hpath')
  refine ⟨root, _, arguments, hroot,
    Tree.readRequest_eq_ok.mpr ⟨path, command, arguments, hpath, hcommand, harguments, rfl⟩, rfl, rfl, ?_, ?_⟩
  · rw [hfragment, Tree.isPlainName_iff hroot, ← Tree.outputNames?_eq_none]
    simp only [Value.call.injEq, Option.bind_some, true_and, and_true]
    constructor
    · rintro ⟨⟨hname, houtput⟩, hdot⟩
      exact ⟨⟨hname.symm, hdot⟩, houtput.symm⟩
    · rintro ⟨⟨hname, hdot⟩, houtput⟩
      exact ⟨⟨hname.symm, houtput.symm⟩, hdot⟩
  · intro hleads
    have htag : path.tag = "path" := by simpa using List.find?_some hpath
    rw [Tree.readLiteral_eq_readCall hleads htag (by rw [hfragment]; rfl), hcall]

/-- `mail send to:address`. -/
def Sample.mailing (service : String) (outputs : List String) : Tree :=
  Shape.service service (some "send") [Shape.argument (some "to") (Shape.path "address" 1) 1] outputs 1

theorem inline_call_read_alike_iff_mailing :
    ∃ v request arguments, (Sample.mailing "mail" []).readCall = .ok v ∧
      (Sample.mailing "mail" []).readRequest = .ok request ∧
      v = .call request.name request.command request.output arguments ∧ request.args = arguments.map .argument ∧
      Text.has request.name '.' = false := by
  have hcall : (Sample.mailing "mail" []).readCall =
      .ok (.call "mail" (some "send") none [⟨some "to", .path [.name "address"]⟩]) := rfl
  obtain ⟨root, request, arguments, hroot, hrequest, hv, hargs, hiff, hliteral⟩ :=
    inline_call_read_alike_iff rfl rfl hcall
  obtain ⟨hsame, hdot⟩ := hiff.mpr ⟨rfl, rfl⟩
  exact ⟨_, request, arguments, hcall, hrequest, hsame, hargs, hdot⟩

/-- `mail.inbox send to:address as r`: the inline call is one to `mail`, without the output. -/
theorem inline_call_read_apart :
    (Sample.mailing "mail.inbox" ["r"]).readCall =
      .ok (.call "mail" (some "send") none [⟨some "to", .path [.name "address"]⟩]) ∧
    (Sample.mailing "mail.inbox" ["r"]).readRequest = .ok
      { name := "mail.inbox", command := some "send",
        args := [.argument ⟨some "to", .path [.name "address"]⟩], output := some ["r"] } :=
  ⟨rfl, rfl⟩

end Flowline
