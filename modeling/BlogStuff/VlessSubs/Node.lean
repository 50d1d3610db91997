import BlogStuff.Python.Url
import BlogStuff.Python.Regex
import BlogStuff.Python.Path
import BlogStuff.Python.Program

/-!
# BlogStuff.VlessSubs.Node

A VLESS node and its constructor (`class Node` of `vless_subs.py`).

A node is its URL: every other field but `ssh` is computed from it, so two nodes
with the same URL differ at most in their SSH target (`Node.parse_ssh`). The
constructor either stores the whole record or stops the process, by `die` or by
an exception of `urlsplit`.
-/

namespace BlogStuff.VlessSubs

open BlogStuff.Python

/-- How a command stops before its end. -/
inductive Exit
  /-- `die(msg)`: the message is printed and the exit status is 1. -/
  | die (msg : Str)
  /-- An uncaught `ValueError` of `urlsplit` or of the `port` of its result. -/
  | url (e : UrlError)
  /-- An uncaught `ValueError` of `urllib.request.Request`. -/
  | request
  /-- An uncaught error of a file operation, or of starting a program that is not there. -/
  | os
  /-- An uncaught `ValueError` of `subprocess.run`. -/
  | argument
  deriving Repr, DecidableEq

/-- A property of what a check lets through is decidable. -/
instance {α : Type} {x : Except Exit α} {P : α → Prop} [DecidablePred P] :
    Decidable (∀ a, x = .ok a → P a) :=
  match x with
  | .ok a => decidable_of_iff (P a) (by simp)
  | .error _ => isTrue (by simp)

/-- A single VLESS node, parsed from its `vless://` URL. -/
structure Node where
  url : Str
  ssh : Str
  uuid : Str
  server : Str
  port : Nat
  name : Str
  flow : Str
  sni : Str
  pbk : Str
  sid : Str
  fp : Str
  network : Str
  security : Str
  deriving Repr, DecidableEq

/-- `node.ssh = ssh`. -/
def Node.withSsh (n : Node) (ssh : Str) : Node := { n with ssh := ssh }

@[simp] theorem Node.withSsh_url (n : Node) (ssh : Str) : (n.withSsh ssh).url = n.url := rfl

@[simp] theorem Node.withSsh_ssh (n : Node) (ssh : Str) : (n.withSsh ssh).ssh = ssh := rfl

/-- The URL scheme every node URL starts with. -/
def vlessScheme : Str := "vless://".toList

/-- A library exception escapes. -/
def liftUrl {α : Type} : Except UrlError α → Except Exit α := Except.mapError Exit.url

/-- `n or 443`. -/
def portOr443 : Option Nat → Nat
  | some (n + 1) => n + 1
  | _ => 443

section

variable [UnicodeData]

/-- The attributes `Node.__init__` stores, from the split URL and its port. A parameter that is
missing or empty has its default, and without a fragment the server is the name. -/
def Node.ofParts (url ssh : Str) (parts : SplitResult) (port : Option Nat) : Node where
  url := url
  ssh := ssh
  uuid := unquote (parts.username.getD [])
  server := parts.hostname.getD []
  port := portOr443 port
  name := pyOr (unquote parts.fragment) (parts.hostname.getD [])
  flow := qsGet (parseQs parts.query) "flow".toList []
  sni := qsGet (parseQs parts.query) "sni".toList []
  pbk := qsGet (parseQs parts.query) "pbk".toList []
  sid := qsGet (parseQs parts.query) "sid".toList []
  fp := qsGet (parseQs parts.query) "fp".toList "chrome".toList
  network := qsGet (parseQs parts.query) "type".toList "tcp".toList
  security := qsGet (parseQs parts.query) "security".toList "reality".toList

/-- `self.uuid and self.server and self.pbk`. -/
def Node.isComplete (n : Node) : Bool := n.uuid ≠ [] ∧ n.server ≠ [] ∧ n.pbk ≠ []

/-- The message for a URL of another scheme. -/
def notVlessMsg (url : Str) : Str := "Not a VLESS URL: ".toList ++ url.take 40 ++ "...".toList

/-- The message for a URL without one of the required parts. -/
def missingMsg (url : Str) : Str :=
  "VLESS URL missing uuid/server/pbk: ".toList ++ url.take 60 ++ "...".toList

/-- `Node.__init__` after both arguments have been stripped. The scheme is compared as it is
written, and a node without uuid, server or public key is refused. -/
def Node.parse (url ssh : Str) : Except Exit Node :=
  if startswith url vlessScheme then do
    let parts ← liftUrl (urlsplit url)
    let port ← liftUrl parts.port
    let node := Node.ofParts url ssh parts port
    if node.isComplete then .ok node else .error (.die (missingMsg url))
  else .error (.die (notVlessMsg url))

/-- `Node.__init__`. -/
def Node.init (url ssh : Str) : Except Exit Node := Node.parse (strip url) (strip ssh)

/-- `node.clash_proxy()`: the node as a Clash (Mihomo) proxy block. -/
def Node.clashProxy (n : Node) : Str :=
  List.intercalate ['\n'] [
    "  - name: \"".toList ++ n.name ++ "\"".toList,
    "    type: vless".toList,
    "    server: ".toList ++ n.server,
    "    port: ".toList ++ Nat.toDigits 10 n.port,
    "    uuid: ".toList ++ n.uuid,
    "    flow: ".toList ++ n.flow,
    "    tls: true".toList,
    "    network: ".toList ++ n.network,
    "    reality-opts:".toList,
    "      public-key: ".toList ++ n.pbk,
    "      short-id: ".toList ++ n.sid,
    "    servername: ".toList ++ n.sni,
    "    client-fingerprint: ".toList ++ n.fp,
    "    udp: true".toList]

/-! ### What the constructor guarantees -/

/-- What an accepted URL went through: the scheme test, the split, a readable port,
and the check for the three required parts. -/
theorem Node.parse_inv {url ssh : Str} {n : Node} (h : Node.parse url ssh = .ok n) :
    startswith url vlessScheme = true ∧ ∃ parts port, urlsplit url = .ok parts ∧
      parts.port = .ok port ∧ n = Node.ofParts url ssh parts port ∧ n.isComplete = true := by
  unfold Node.parse at h
  split_ifs at h with hs
  refine ⟨hs, ?_⟩
  cases hu : urlsplit url with
  | error e => simp [hu, liftUrl, Except.mapError, bind, Except.bind] at h
  | ok parts =>
      cases hp : parts.port with
      | error e => simp [hu, hp, liftUrl, Except.mapError, bind, Except.bind] at h
      | ok port =>
          simp only [hu, hp, liftUrl, Except.mapError, bind, Except.bind] at h
          split_ifs at h with hc
          obtain rfl := Except.ok.inj h
          exact ⟨parts, port, rfl, hp, rfl, hc⟩

/-- The SSH target has no influence on the rest of the node, nor on whether there is one: the checks
look at the URL alone. -/
theorem Node.parse_ssh (url ssh : Str) :
    Node.parse url ssh = (Node.parse url []).map (Node.withSsh · ssh) := by
  unfold Node.parse
  split_ifs
  · cases hu : liftUrl (urlsplit url) with
    | error e => rfl
    | ok parts =>
        cases hp : liftUrl parts.port with
        | error e => simp only [hp, bind, Except.bind, Except.map]
        | ok port =>
            have hc : (Node.ofParts url ssh parts port).isComplete =
                (Node.ofParts url [] parts port).isComplete := rfl
            simp only [hp, bind, Except.bind, hc]
            split_ifs <;> rfl
  · rfl

theorem Node.init_url {u s : Str} {n : Node} (h : Node.init u s = .ok n) :
    n.url = strip u ∧ n.ssh = strip s ∧ startswith n.url vlessScheme = true := by
  obtain ⟨hs, parts, port, -, -, rfl, -⟩ := Node.parse_inv h
  exact ⟨rfl, rfl, hs⟩

/-- Constructing a node again from its own URL changes the SSH target only. -/
theorem Node.init_again {u s : Str} {n : Node} (h : Node.init u s = .ok n) (ssh : Str) :
    Node.init n.url ssh = .ok (n.withSsh (strip ssh)) := by
  have hparse : Node.init n.url ssh = (Node.parse (strip u) []).map (Node.withSsh · (strip ssh)) := by
    rw [Node.init, (Node.init_url h).1, strip_idem, Node.parse_ssh]
  have h' := h
  rw [Node.init, Node.parse_ssh] at h'
  rw [hparse]
  cases hp : Node.parse (strip u) [] with
  | error e => rw [hp] at h'; cases h'
  | ok m =>
      rw [hp] at h'
      obtain rfl : m.withSsh (strip s) = n := Except.ok.inj h'
      rfl

end

end BlogStuff.VlessSubs
