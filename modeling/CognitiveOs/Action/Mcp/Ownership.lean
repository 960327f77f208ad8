import CognitiveOs.Action.Registry
import CognitiveOs.Foundation.Machine

/-!
# MCP servers and their tools

The part of `action/mcp_conn.c` that keeps the connections and registers the tools found on
their servers. What a server answers, and whether it answers, is part of the step.
-/

namespace CognitiveOs.Action

open Foundation Infra

structure McpConn where
  name : Text
  transport : Text := []
  url : Text := []
  token : Text := []
  command : Text := []
  argsCsv : Text := []

structure McpSession where
  initialized : Bool := false
  /-- The cached answer to `tools/list`. -/
  tools : Option (List Json) := none

structure McpManager where
  items : List (McpConn × McpSession) := []
  /-- The tools this manager created. -/
  owned : List Tool := []
  reg : ToolRegistry := {}

namespace McpManager

def names (m : McpManager) : List Text :=
  m.items.map fun item => item.1.name

def findConn (m : McpManager) (name : Text) : Option Nat :=
  m.items.findIdx? fun item => item.1.name = name

/-- The connection `mcp_manager_add_ex` stores, unless a field that it needs is missing. -/
def accepted (conn : McpConn) : Option McpConn :=
  let transport := if conn.transport = [] then ascii "http" else conn.transport
  let isHttp := transport = ascii "http"
  let isStdio := transport = ascii "stdio"
  if conn.name = [] || !(isHttp || isStdio) || (isHttp && conn.url = []) ||
      (isStdio && conn.command = []) then none
  else some { conn with transport }

/-- `mcp_manager_add_ex`; a connection of the same name is replaced, with a fresh session. -/
def addEx (m : McpManager) (conn : McpConn) : McpManager :=
  match accepted conn with
  | none => m
  | some copy =>
    match m.findConn conn.name with
    | some i => { m with items := m.items.set i (copy, {}) }
    | none => { m with items := m.items ++ [(copy, {})] }

def slugChar (ch : UInt8) : UInt8 :=
  if (97 ≤ ch ∧ ch ≤ 122) ∨ (65 ≤ ch ∧ ch ≤ 90) ∨ (48 ≤ ch ∧ ch ≤ 57) ∨ ch = 95 ∨ ch = 45 then ch
  else 95

/-- `mcp_server_slug` into a buffer of 128 bytes. -/
def serverSlug (server : Text) : Text :=
  (server.take 127).map slugChar

def toolPrefix (server : Text) : Text :=
  snprintf 160 (ascii "mcp__" ++ serverSlug server ++ ascii "__")

def fullName (server tool : Text) : Text :=
  snprintf 512 (ascii "mcp__" ++ serverSlug server ++ ascii "__" ++ tool)

def remoteTool (server tool : Text) : Tool :=
  { name := fullName server tool
    remote := some { server := snprintf 128 server, tool := snprintf 256 tool } }

/-- `mcp_manager_remove` takes the server's tools out by the start of their names. -/
def dropTool (server : Text) (m : McpManager) (t : Tool) : McpManager :=
  if (toolPrefix server).isPrefixOf t.name then
    { m with reg := m.reg.unregister t.name, owned := m.owned.erase t }
  else m

def remove (m : McpManager) (name : Text) : McpManager :=
  match m.findConn name with
  | none => m
  | some i => m.owned.reverse.foldl (dropTool name) { m with items := m.items.eraseIdx i }

/-- One tool of `sync_server`: it takes the place of the tool of that name, which is retired
when this manager created it. -/
def registerTool (server : Text) (m : McpManager) (tool : Text) : McpManager :=
  let t := remoteTool server tool
  let owned :=
    match m.reg.find t.name with
    | some prev => if prev.remote.isSome && m.owned.contains prev then m.owned.erase prev else m.owned
    | none => m.owned
  { m with reg := m.reg.register t, owned := owned ++ [t] }

/-- The names in an answer to `tools/list`. -/
def toolNames (tools : List Json) : List Text :=
  tools.filterMap fun tool => (tool.get? (ascii "name")).bind Json.string?

structure SyncEnv where
  /-- The child of a stdio server was not running and has been started. -/
  respawned : Bool := false
  /-- The handshake succeeds. -/
  handshake : Bool := true
  /-- The array in the answer to `tools/list`. -/
  listed : Option (List Json) := none

/-- `ensure_initialized`: the session, and whether it is usable. -/
def ensureInitialized (s : McpSession) (env : SyncEnv) : McpSession × Bool :=
  let s := if env.respawned then {} else s
  if s.initialized then (s, true)
  else if env.handshake then ({ s with initialized := true }, true)
  else (s, false)

/-- `fetch_tools`, with the cached list. -/
def fetchTools (s : McpSession) (env : SyncEnv) : McpSession :=
  match s.tools with
  | some _ => s
  | none => { s with tools := env.listed }

def syncSession (s : McpSession) (env : SyncEnv) : McpSession × Option (List Text) :=
  match ensureInitialized s env with
  | (s, false) => (s, none)
  | (s, true) =>
    let s := fetchTools s env
    (s, s.tools.map toolNames)

def syncServer (m : McpManager) (i : Nat) (env : SyncEnv) : McpManager :=
  match m.items[i]? with
  | none => m
  | some (conn, session) =>
    let (session, found) := syncSession session env
    let m := { m with items := m.items.set i (conn, session) }
    match found with
    | none => m
    | some tools => tools.foldl (registerTool conn.name) m

end McpManager

end CognitiveOs.Action

/-!
## Remote tools belong to their servers

Beside the manager this keeps, for every server, the tools its last sync found. While no two
tools share a name and no server's prefix starts another server's tool, the remote tools that
are registered are exactly these.
-/

namespace CognitiveOs.Action

open Foundation Infra

namespace McpManager

/-! ### One operation -/

section Operations

variable {m : McpManager}

structure Owning (m : McpManager) : Prop where
  nodup : m.owned.Nodup
  mem_iff : ∀ tool, tool ∈ m.owned ↔ tool ∈ m.reg.tools ∧ tool.remote.isSome

def Registers (m : McpManager) (found : Text → Text → Prop) : Prop :=
  ∀ name b, { name, remote := some b : Tool } ∈ m.reg.tools ↔
    found b.server b.tool ∧ name = fullName b.server b.tool

variable {server : Text}

theorem remoteTool_of_short {tool : Text} (serverShort : server.length ≤ 127) (toolShort : tool.length ≤ 255) :
    remoteTool server tool = { name := fullName server tool, remote := some { server, tool } } := by
  unfold remoteTool snprintf
  rw [List.take_of_length_le (by omega), List.take_of_length_le (by omega)]

theorem toolPrefix_isPrefixOf (server tool : Text) :
    (toolPrefix server).isPrefixOf (fullName server tool) = true := by
  let start : Text := ascii "mcp__" ++ serverSlug server ++ ascii "__"
  have bound : start.length ≤ 134 := by
    have slug : (serverSlug server).length ≤ 127 := by
      rw [serverSlug, List.length_map, List.length_take]
      exact Nat.min_le_left ..
    have ends : (ascii "mcp__").length = 5 ∧ (ascii "__").length = 2 := by decide
    simp only [start, List.length_append]
    omega
  rw [List.isPrefixOf_iff_prefix]
  show (start.take 159) <+: (start ++ tool).take 511
  rw [List.take_of_length_le (by omega), List.take_append, List.take_of_length_le (by omega)]
  exact List.prefix_append _ _

theorem registerTool_owning (owning : Owning m) (server tool : Text) :
    Owning (registerTool server m tool) := by
  let t := remoteTool server tool
  -- the tools still owned, before the new one is added
  obtain ⟨kept, same, nodup, member⟩ : ∃ kept, registerTool server m tool =
      { m with reg := m.reg.register t, owned := kept ++ [t] } ∧ kept.Nodup ∧
      ∀ x, x ∈ kept ↔ x ∈ m.owned ∧ x.name ≠ t.name := by
    refine ⟨_, rfl, ?_⟩
    cases found : m.reg.find t.name with
    | none =>
      refine ⟨owning.nodup, fun x => ⟨fun known => ⟨known, ?_⟩, And.left⟩⟩
      intro clash
      have there := ((owning.mem_iff x).mp known).1
      rw [ToolRegistry.find_eq_some_iff.mpr ⟨there, clash⟩] at found
      cases found
    | some prev =>
      rcases ToolRegistry.find_eq_some_iff.mp found with ⟨registered, named⟩
      have only {x : Tool} (known : x ∈ m.owned) : x.name = t.name ↔ x = prev := by
        constructor
        · intro clash
          exact ToolRegistry.eq_of_name ((owning.mem_iff x).mp known).1 registered
            (clash.trans named.symm)
        · rintro rfl
          exact named
      simp only
      split
      · refine ⟨owning.nodup.erase prev, fun x => ?_⟩
        rw [owning.nodup.mem_erase_iff]
        constructor
        · rintro ⟨other, known⟩
          exact ⟨known, fun clash => other ((only known).mp clash)⟩
        · rintro ⟨known, other⟩
          exact ⟨fun same => other ((only known).mpr same), known⟩
      · rename_i local'
        refine ⟨owning.nodup, fun x => ⟨fun known => ⟨known, ?_⟩, And.left⟩⟩
        intro clash
        obtain rfl := (only known).mp clash
        simp [known, ((owning.mem_iff x).mp known).2] at local'
  rw [same]
  constructor
  · apply List.nodup_append.mpr
    refine ⟨nodup, by simp, ?_⟩
    rintro x known y last rfl
    rw [List.mem_singleton.mp last] at known
    exact ((member t).mp known).2 rfl
  · intro x
    simp only [List.mem_append, List.mem_singleton, member, owning.mem_iff,
      ToolRegistry.mem_register]
    constructor
    · rintro (⟨⟨registered, remote⟩, other⟩ | rfl)
      · exact ⟨Or.inr ⟨registered, other⟩, remote⟩
      · exact ⟨Or.inl rfl, rfl⟩
    · rintro ⟨rfl | ⟨registered, other⟩, remote⟩
      · exact Or.inr rfl
      · exact Or.inl ⟨⟨registered, remote⟩, other⟩

theorem registerTool_registers {found : Text → Text → Prop} {tool : Text} (registers : Registers m found)
    (serverShort : server.length ≤ 127) (toolShort : tool.length ≤ 255)
    (apart : ∀ s n, found s n → fullName s n = fullName server tool → s = server ∧ n = tool) :
    Registers (registerTool server m tool) fun s n => found s n ∨ s = server ∧ n = tool := by
  intro name b
  show _ ∈ (m.reg.register (remoteTool server tool)).tools ↔ _
  rw [ToolRegistry.mem_register, registers name b, remoteTool_of_short serverShort toolShort]
  simp only [Tool.mk.injEq, Option.some.injEq]
  constructor
  · rintro (⟨rfl, rfl⟩ | ⟨⟨pair, rfl⟩, -⟩)
    · exact ⟨Or.inr ⟨rfl, rfl⟩, rfl⟩
    · exact ⟨Or.inl pair, rfl⟩
  · rintro ⟨pair | ⟨rfl, rfl⟩, rfl⟩
    · by_cases clash : fullName b.server b.tool = fullName server tool
      · rcases apart b.server b.tool pair clash with ⟨rfl, rfl⟩
        exact Or.inl ⟨rfl, rfl⟩
      · exact Or.inr ⟨⟨pair, rfl⟩, clash⟩
    · exact Or.inl ⟨rfl, rfl⟩

theorem foldl_registerTool_items (server : Text) (tools : List Text) (m : McpManager) :
    (tools.foldl (registerTool server) m).items = m.items := by
  induction tools generalizing m with
  | nil => rfl
  | cons tool tools ih => exact ih (registerTool server m tool)

theorem foldl_registerTool_owning {tools : List Text} (owning : Owning m) :
    Owning (tools.foldl (registerTool server) m) := by
  induction tools generalizing m with
  | nil => exact owning
  | cons tool tools ih => exact ih (registerTool_owning owning server tool)

theorem foldl_registerTool_registers {found : Text → Text → Prop} {tools : List Text} (registers : Registers m found)
    (short : ∀ tool ∈ tools, server.length ≤ 127 ∧ tool.length ≤ 255)
    (apart : ∀ tool ∈ tools, ∀ s n, found s n ∨ s = server ∧ n ∈ tools →
      fullName s n = fullName server tool → s = server ∧ n = tool) :
    Registers (tools.foldl (registerTool server) m) fun s n => found s n ∨ s = server ∧ n ∈ tools := by
  induction tools generalizing m found with
  | nil => simpa [Registers] using registers
  | cons tool tools ih =>
    have first := registerTool_registers registers (short tool List.mem_cons_self).1
      (short tool List.mem_cons_self).2
      fun s n pair => apart tool List.mem_cons_self s n (Or.inl pair)
    have rest := ih first (fun other member => short other (List.mem_cons_of_mem tool member)) (by
      rintro other member s n ((pair | ⟨rfl, rfl⟩) | ⟨rfl, later⟩)
      · exact apart other (List.mem_cons_of_mem tool member) s n (Or.inl pair)
      · exact apart other (List.mem_cons_of_mem n member) s n (Or.inr ⟨rfl, List.mem_cons_self⟩)
      · exact apart other (List.mem_cons_of_mem tool member) s n
          (Or.inr ⟨rfl, List.mem_cons_of_mem tool later⟩))
    intro name b
    rw [List.foldl_cons, rest name b]
    simp only [List.mem_cons]
    tauto

theorem foldl_dropTool (server : Text) (tools : List Tool) {m : McpManager} (nodup : m.owned.Nodup) :
    let after := tools.foldl (dropTool server) m
    after.items = m.items ∧ after.owned.Nodup ∧
      (∀ x, x ∈ after.owned ↔
        x ∈ m.owned ∧ ¬ (x ∈ tools ∧ (toolPrefix server).isPrefixOf x.name = true)) ∧
      ∀ x, x ∈ after.reg.tools ↔ x ∈ m.reg.tools ∧
        ∀ t ∈ tools, (toolPrefix server).isPrefixOf t.name = true → x.name ≠ t.name := by
  induction tools generalizing m with
  | nil => simpa using nodup
  | cons t tools ih =>
    rw [List.foldl_cons]
    by_cases drops : (toolPrefix server).isPrefixOf t.name = true
    · have step : dropTool server m t =
          { m with reg := m.reg.unregister t.name, owned := m.owned.erase t } := if_pos drops
      rw [step]
      rcases ih (m := { m with reg := m.reg.unregister t.name, owned := m.owned.erase t })
        (nodup.erase t) with ⟨items, nodup', owned, registered⟩
      refine ⟨items, nodup', fun x => ?_, fun x => ?_⟩
      · rw [owned x, nodup.mem_erase_iff, List.mem_cons]
        by_cases same : x = t
        · subst same
          simp [drops]
        · simp [same]
      · rw [registered x, ToolRegistry.mem_unregister, List.forall_mem_cons, and_assoc]
        simp [drops]
    · have step : dropTool server m t = m := if_neg drops
      rw [step]
      rcases ih nodup with ⟨items, nodup', owned, registered⟩
      refine ⟨items, nodup', fun x => ?_, fun x => ?_⟩
      · rw [owned x, List.mem_cons]
        by_cases same : x = t
        · subst same
          simp [drops]
        · simp [same]
      · rw [registered x, List.forall_mem_cons]
        simp [drops]

end Operations

/-! ### The machine -/

inductive Label where
  | add (conn : McpConn)
  | sync (i : Nat) (env : SyncEnv)
  | remove (name : Text)

/-- The manager with the tools the last sync of each server found. -/
structure Traced where
  now : McpManager := {}
  listed : Text → List Text := fun _ => []

def synced (m : McpManager) (i : Nat) (env : SyncEnv) : Option (Text × List Text) :=
  m.items[i]?.bind fun item => (syncSession item.2 env).2.map fun tools => (item.1.name, tools)

def step (t : Traced) : Label → Traced
  | .add conn =>
    { now := t.now.addEx conn
      listed := if (accepted conn).isSome then Function.update t.listed conn.name [] else t.listed }
  | .sync i env =>
    { now := t.now.syncServer i env
      listed :=
        match synced t.now i env with
        | some (server, tools) => Function.update t.listed server tools
        | none => t.listed }
  | .remove name =>
    { now := t.now.remove name, listed := Function.update t.listed name [] }

def mcp : Machine Traced Label :=
  Machine.ofFun step

/-- `mcp_manager_sync_tools`; a server without an environment is skipped. -/
def syncTools (m : McpManager) (envs : List (Nat × SyncEnv)) : McpManager :=
  envs.foldl (fun m (i, env) => m.syncServer i env) m

theorem syncTools_run (t : Traced) (envs : List (Nat × SyncEnv)) :
    ∃ u, mcp.Run t (envs.map fun (i, env) => .sync i env) u ∧ u.now = syncTools t.now envs := by
  induction envs generalizing t with
  | nil => exact ⟨t, .start t, rfl⟩
  | cons head envs ih =>
    rcases ih (step t (.sync head.1 head.2)) with ⟨u, run, now⟩
    exact ⟨u, Machine.Run.cons rfl run, now⟩

/-- The tools of an answer are told apart by their names, and none that was listed is gone. -/
structure Compatible (t : Traced) (server : Text) (tools : List Text) : Prop where
  short : ∀ tool ∈ tools, server.length ≤ 127 ∧ tool.length ≤ 255
  kept : t.listed server ⊆ tools
  apart : ∀ tool ∈ tools, ∀ s n, n ∈ t.listed s ∨ s = server ∧ n ∈ tools →
    fullName s n = fullName server tool → s = server ∧ n = tool

def Apart (t : Traced) : Label → Prop
  | .add conn => (accepted conn).isSome → t.listed conn.name = []
  | .sync i env => ∀ server tools, synced t.now i env = some (server, tools) →
      Compatible t server tools
  | .remove server => server ∈ t.now.names → ∀ other ≠ server, ∀ tool ∈ t.listed other,
      (toolPrefix server).isPrefixOf (fullName other tool) = false

structure Belongs (t : Traced) : Prop where
  names : t.now.names.Nodup
  present : ∀ server, t.listed server ≠ [] → server ∈ t.now.names
  owning : Owning t.now
  registers : Registers t.now fun server tool => tool ∈ t.listed server

section Steps

variable {t : Traced}

variable {conn : McpConn}

theorem accepted_name {copy : McpConn} (stored : accepted conn = some copy) : copy.name = conn.name := by
  unfold accepted at stored
  extract_lets transport isHttp isStdio at stored
  split at stored
  · cases stored
  · rw [← Option.some.inj stored]

variable {i : Nat}

theorem names_set {items : List (McpConn × McpSession)} {session : McpSession} {item : McpConn × McpSession}
    (there : items[i]? = some item) (same : conn.name = item.1.name) :
    (items.set i (conn, session)).map (fun item => item.1.name) =
      items.map fun item => item.1.name := by
  apply List.ext_getElem?
  intro k
  rw [List.getElem?_map, List.getElem?_map, List.getElem?_set]
  split
  · rename_i here
    subst here
    rw [there]
    simp [same, (List.getElem?_eq_some_iff.mp there).1]
  · rfl

theorem addEx_spec {copy : McpConn} (m : McpManager) (stored : accepted conn = some copy) :
    (m.addEx conn).owned = m.owned ∧ (m.addEx conn).reg = m.reg ∧
      ((conn.name ∈ m.names ∧ (m.addEx conn).names = m.names) ∨
        (conn.name ∉ m.names ∧ (m.addEx conn).names = m.names ++ [conn.name])) := by
  unfold addEx
  rw [stored]
  simp only
  split
  · rename_i i found
    have spec := List.findIdx?_eq_some_iff_getElem.mp found
    rcases spec with ⟨bound, same, -⟩
    have there := List.getElem?_eq_getElem bound
    have named := of_decide_eq_true same
    refine ⟨rfl, rfl, Or.inl ⟨?_, names_set there ((accepted_name stored).trans named.symm)⟩⟩
    rw [← named]
    exact List.mem_map_of_mem (List.getElem_mem bound)
  · rename_i missing
    refine ⟨rfl, rfl, Or.inr ⟨?_, ?_⟩⟩
    · intro member
      rcases List.mem_map.mp member with ⟨item, known, same⟩
      have none := List.findIdx?_eq_none_iff.mp missing item known
      simp [same] at none
    · simp [names, accepted_name stored]

theorem add_belongs (apart : Apart t (.add conn)) (belongs : Belongs t) : Belongs (step t (.add conn)) := by
  cases stored : accepted conn with
  | none =>
    have same : step t (.add conn) = t := by simp [step, addEx, stored]
    rw [same]
    exact belongs
  | some copy =>
    have unlisted : Function.update t.listed conn.name [] = t.listed := by
      rw [← apart (by simp [stored]), Function.update_eq_self]
    rcases addEx_spec t.now stored with ⟨owned, reg, names⟩
    have now : step t (.add conn) = { now := t.now.addEx conn, listed := t.listed } := by
      simp [step, stored, unlisted]
    rw [now]
    constructor
    · rcases names with ⟨-, same⟩ | ⟨fresh, more⟩
      · simpa only [same] using belongs.names
      · simp only [more]
        apply List.nodup_append.mpr
        refine ⟨belongs.names, by simp, ?_⟩
        rintro name known other last rfl
        rw [List.mem_singleton.mp last] at known
        exact fresh known
    · intro server listed
      have known := belongs.present server listed
      rcases names with ⟨-, same⟩ | ⟨-, more⟩
      · simpa only [same] using known
      · simpa only [more] using List.mem_append_left _ known
    · exact ⟨owned ▸ belongs.owning.nodup, by rw [owned, reg]; exact belongs.owning.mem_iff⟩
    · show Registers (t.now.addEx conn) _
      unfold Registers
      rw [reg]
      exact belongs.registers

theorem syncServer_spec (m : McpManager) (i : Nat) (env : SyncEnv) :
    ∃ items, items.map (fun item => item.1.name) = m.names ∧
      m.syncServer i env =
        match synced m i env with
        | some (server, tools) => tools.foldl (registerTool server) { m with items }
        | none => { m with items } := by
  unfold syncServer synced
  cases there : m.items[i]? with
  | none => exact ⟨m.items, rfl, rfl⟩
  | some item =>
    rcases item with ⟨conn, session⟩
    refine ⟨m.items.set i (conn, (syncSession session env).1), names_set there rfl, ?_⟩
    simp only [Option.bind_some]
    generalize syncSession session env = result
    rcases result with ⟨session, found⟩
    cases found <;> rfl

variable {server : Text}

theorem synced_mem {env : SyncEnv} {tools : List Text} (found : synced t.now i env = some (server, tools)) :
    server ∈ t.now.names := by
  rcases Option.bind_eq_some_iff.mp found with ⟨item, there, answer⟩
  rcases Option.map_eq_some_iff.mp answer with ⟨_, -, same⟩
  obtain rfl : item.1.name = server := congrArg Prod.fst same
  exact List.mem_map_of_mem (List.mem_of_getElem? there)

theorem sync_belongs {env : SyncEnv} (apart : Apart t (.sync i env)) (belongs : Belongs t) :
    Belongs (step t (.sync i env)) := by
  rcases syncServer_spec t.now i env with ⟨items, names, spec⟩
  have quiet : Belongs { now := { t.now with items }, listed := t.listed } := by
    constructor
    · exact (congrArg List.Nodup names).mpr belongs.names
    · intro server listed
      exact (congrArg (server ∈ ·) names).mpr (belongs.present server listed)
    · exact ⟨belongs.owning.nodup, belongs.owning.mem_iff⟩
    · exact belongs.registers
  cases found : synced t.now i env with
  | none =>
    rw [found] at spec
    have same : step t (.sync i env) = { now := { t.now with items }, listed := t.listed } := by
      simp only [step, found, spec]
    rw [same]
    exact quiet
  | some answer =>
    rcases answer with ⟨server, tools⟩
    rw [found] at spec
    have same : step t (.sync i env) =
        { now := tools.foldl (registerTool server) { t.now with items }
          listed := Function.update t.listed server tools } := by
      simp only [step, found, spec]
    have compatible := apart server tools found
    rw [same]
    have kept := foldl_registerTool_items server tools { t.now with items }
    constructor
    · show (List.map _ (tools.foldl (registerTool server) { t.now with items }).items).Nodup
      rw [kept]
      exact quiet.names
    · intro other listed
      show other ∈ List.map _ (tools.foldl (registerTool server) { t.now with items }).items
      rw [kept]
      by_cases here : other = server
      · rw [here]
        exact (congrArg (server ∈ ·) names).mpr (synced_mem found)
      · apply quiet.present other
        simpa [Function.update_of_ne here] using listed
    · exact foldl_registerTool_owning quiet.owning
    · have registers := foldl_registerTool_registers quiet.registers compatible.short compatible.apart
      intro name b
      rw [registers name b]
      show _ ↔ b.tool ∈ Function.update t.listed server tools b.server ∧ _
      by_cases here : b.server = server
      · rw [here, Function.update_self]
        constructor
        · rintro ⟨old | ⟨-, new⟩, same⟩
          · exact ⟨compatible.kept old, same⟩
          · exact ⟨new, same⟩
        · rintro ⟨new, same⟩
          exact ⟨Or.inr ⟨rfl, new⟩, same⟩
      · rw [Function.update_of_ne here]
        simp [here]

theorem remove_spec (m : McpManager) (owning : Owning m) (known : server ∈ m.names) :
    (∃ i, (m.remove server).names = m.names.eraseIdx i ∧ m.names[i]? = some server) ∧
      Owning (m.remove server) ∧
      ∀ x, x ∈ (m.remove server).reg.tools ↔ x ∈ m.reg.tools ∧
        ¬ (x.remote.isSome = true ∧ (toolPrefix server).isPrefixOf x.name = true) := by
  unfold remove
  cases found : m.findConn server with
  | none =>
    rcases List.mem_map.mp known with ⟨item, member, same⟩
    have none := List.findIdx?_eq_none_iff.mp found item member
    simp [same] at none
  | some i =>
    have spec := List.findIdx?_eq_some_iff_getElem.mp found
    rcases spec with ⟨bound, same, -⟩
    have drops := foldl_dropTool server m.owned.reverse
      (m := { m with items := m.items.eraseIdx i }) owning.nodup
    rcases drops with ⟨items, nodup, owned, registered⟩
    have kept (x : Tool) : x ∈ ((m.owned.reverse.foldl (dropTool server)
        { m with items := m.items.eraseIdx i }).reg.tools) ↔ x ∈ m.reg.tools ∧
        ¬ (x.remote.isSome = true ∧ (toolPrefix server).isPrefixOf x.name = true) := by
      rw [registered x]
      constructor
      · rintro ⟨member, others⟩
        refine ⟨member, ?_⟩
        rintro ⟨remote, starts⟩
        exact others x (List.mem_reverse.mpr ((owning.mem_iff x).mpr ⟨member, remote⟩)) starts rfl
      · rintro ⟨member, stays⟩
        refine ⟨member, fun o owned starts clash => stays ?_⟩
        have there := (owning.mem_iff o).mp (List.mem_reverse.mp owned)
        rw [ToolRegistry.eq_of_name member there.1 clash]
        exact ⟨there.2, starts⟩
    refine ⟨⟨i, ?_, ?_⟩, ⟨nodup, fun x => ?_⟩, kept⟩
    · rw [names, items, names]
      simp only [List.eraseIdx_eq_take_drop_succ, List.map_append, List.map_take, List.map_drop]
    · rw [names, List.getElem?_map, List.getElem?_eq_getElem bound]
      exact congrArg some (of_decide_eq_true same)
    · rw [owned x, kept x]
      simp only [List.mem_reverse, owning.mem_iff]
      tauto

theorem remove_unknown {m : McpManager} (unknown : server ∉ m.names) : m.remove server = m := by
  unfold remove
  cases found : m.findConn server with
  | none => rfl
  | some i =>
    have spec := List.findIdx?_eq_some_iff_getElem.mp found
    rcases spec with ⟨bound, same, -⟩
    have same := of_decide_eq_true same
    exact absurd (same ▸ List.mem_map_of_mem (List.getElem_mem bound)) unknown

theorem remove_keeps (apart : Apart t (.remove server)) (belongs : Belongs t) {tool : Tool}
    (member : tool ∈ t.now.reg.tools) (other : ∀ b, tool.remote = some b → b.server ≠ server) :
    tool ∈ (t.now.remove server).reg.tools := by
  by_cases known : server ∈ t.now.names
  · refine ((remove_spec t.now belongs.owning known).2.2 tool).mpr ⟨member, ?_⟩
    rintro ⟨remote, starts⟩
    rcases Option.isSome_iff_exists.mp remote with ⟨b, bound⟩
    rcases tool with ⟨name, _⟩
    obtain rfl := bound
    rcases (belongs.registers name b).mp member with ⟨listed, rfl⟩
    rw [apart known b.server (other b rfl) b.tool listed] at starts
    cases starts
  · rwa [remove_unknown known]

theorem remove_belongs (apart : Apart t (.remove server)) (belongs : Belongs t) :
    Belongs (step t (.remove server)) := by
  by_cases known : server ∈ t.now.names
  · rcases remove_spec t.now belongs.owning known with ⟨⟨i, names, there⟩, owning, registered⟩
    constructor
    · show (t.now.remove server).names.Nodup
      rw [names]
      exact belongs.names.sublist (List.eraseIdx_sublist _ _)
    · intro other listed
      show other ∈ (t.now.remove server).names
      by_cases here : other = server
      · simp [step, here] at listed
      · have known : other ∈ t.now.names := by
          apply belongs.present other
          simpa [step, Function.update_of_ne here] using listed
        rcases List.mem_iff_getElem?.mp known with ⟨k, at'⟩
        rw [names, List.mem_eraseIdx_iff_getElem?]
        refine ⟨k, ?_, at'⟩
        rintro rfl
        rw [at'] at there
        exact here (Option.some.inj there)
    · exact owning
    · intro name b
      show _ ∈ (t.now.remove server).reg.tools ↔ b.tool ∈ Function.update t.listed server [] b.server ∧ _
      rw [registered, belongs.registers name b]
      by_cases here : b.server = server
      · rw [here, Function.update_self]
        constructor
        · rintro ⟨⟨-, rfl⟩, stays⟩
          exact absurd ⟨rfl, toolPrefix_isPrefixOf server b.tool⟩ stays
        · rintro ⟨impossible, -⟩
          cases impossible
      · rw [Function.update_of_ne here]
        constructor
        · exact And.left
        · rintro ⟨listed, rfl⟩
          refine ⟨⟨listed, rfl⟩, ?_⟩
          rintro ⟨-, starts⟩
          rw [apart known b.server here b.tool listed] at starts
          cases starts
  · have unlisted : t.listed server = [] := by
      by_contra listed
      exact known (belongs.present server listed)
    have same : step t (.remove server) = t := by
      simp only [step, remove_unknown known]
      rw [← unlisted, Function.update_eq_self]
    rw [same]
    exact belongs

theorem step_belongs {u : Traced} {l : Label} (belongs : Belongs t)
    (taken : mcp.restrict Apart t l u) : Belongs u := by
  rcases taken with ⟨apart, rfl⟩
  cases l with
  | add conn => exact add_belongs apart belongs
  | sync i env => exact sync_belongs apart belongs
  | remove server => exact remove_belongs apart belongs

end Steps

def start (reg : ToolRegistry) : Traced :=
  { now := { reg } }

theorem start_belongs {reg : ToolRegistry} (builtin : ∀ tool ∈ reg.tools, tool.remote = none) :
    Belongs (start reg) := by
  constructor
  · exact List.nodup_nil
  · intro server listed
    exact absurd rfl listed
  · refine ⟨List.nodup_nil, fun tool => ?_⟩
    constructor
    · intro member
      cases member
    · rintro ⟨member, remote⟩
      rw [builtin tool member] at remote
      cases remote
  · intro name b
    constructor
    · intro member
      cases builtin _ member
    · rintro ⟨impossible, -⟩
      cases impossible

/-- In every run whose steps keep the tools apart, the registered remote tools are those
the last sync of each present server found, each bound to its server, and a removal leaves
every other tool registered. -/
theorem tools_belong {reg : ToolRegistry} (builtin : ∀ tool ∈ reg.tools, tool.remote = none)
    {ls : List Label} {t : Traced} (run : (mcp.restrict Apart).Run (start reg) ls t) :
    (∀ name b, { name, remote := some b : Tool } ∈ t.now.reg.tools ↔
      b.server ∈ t.now.names ∧ b.tool ∈ t.listed b.server ∧ name = fullName b.server b.tool) ∧
    ∀ server, Apart t (.remove server) → ∀ tool ∈ t.now.reg.tools,
      (∀ b, tool.remote = some b → b.server ≠ server) → tool ∈ (t.now.remove server).reg.tools := by
  have belongs : Belongs t :=
    run.invariant (fun _ _ _ belongs taken => step_belongs belongs taken) (start_belongs builtin)
  constructor
  · intro name b
    rw [belongs.registers name b]
    constructor
    · rintro ⟨listed, same⟩
      exact ⟨belongs.present b.server (List.ne_nil_of_mem listed), listed, same⟩
    · exact And.right
  · intro server apart tool member other
    exact remove_keeps apart belongs member other

def httpServer (name : String) : McpConn :=
  { name := ascii name, url := ascii "http://localhost" }

def lists (tool : String) : SyncEnv :=
  { listed := some [.object [(ascii "name", .string (ascii tool))]] }

/-- The tool found on a server calls that server. -/
theorem tools_belong_one :
    { name := ascii "mcp__a__t", remote := some { server := ascii "a", tool := ascii "t" } : Tool } ∈
      ([.add (httpServer "a"), .sync 0 (lists "t")].foldl step (start {})).now.reg.tools := by
  let u := step (start {}) (.add (httpServer "a"))
  have added : mcp.restrict Apart (start {}) (.add (httpServer "a")) u := ⟨fun _ => rfl, rfl⟩
  have found : synced u.now 0 (lists "t") = some (ascii "a", [ascii "t"]) := by decide
  have listed : mcp.restrict Apart u (.sync 0 (lists "t")) (step u (.sync 0 (lists "t"))) := by
    refine ⟨?_, rfl⟩
    intro server tools same
    rw [found] at same
    obtain ⟨rfl, rfl⟩ := Prod.mk.inj (Option.some.inj same)
    have unlisted (s : Text) : u.listed s = [] := by
      by_cases here : s = ascii "a"
      · rw [here]
        rfl
      · exact Function.update_of_ne here _ _
    constructor
    · decide
    · rw [unlisted]
      exact List.nil_subset _
    · intro tool member s n known _
      rw [unlisted] at known
      rcases known with impossible | ⟨rfl, same⟩
      · cases impossible
      · rw [List.mem_singleton.mp same, List.mem_singleton.mp member]
        exact ⟨rfl, rfl⟩
  apply ((tools_belong (by decide) ((Machine.Run.single added).step listed)).1 (ascii "mcp__a__t")
    { server := ascii "a", tool := ascii "t" }).mpr
  refine ⟨by decide, ?_, by decide⟩
  show ascii "t" ∈ match synced u.now 0 (lists "t") with
    | some (server, tools) => Function.update u.listed server tools (ascii "a")
    | none => u.listed (ascii "a")
  rw [found]
  decide

/-- The servers `a` and `a__b`; the second lists a tool, the first is removed. -/
def relatedNames : List Label :=
  [.add (httpServer "a"), .add (httpServer "a__b"), .sync 1 (lists "t"), .remove (ascii "a")]

/-- The tool of `a__b` goes with the server `a`. -/
theorem tools_belong_fails :
    ∃ t, mcp.Run (start {}) relatedNames t ∧ ascii "a__b" ∈ t.now.names ∧
      ascii "t" ∈ t.listed (ascii "a__b") ∧ ∀ tool ∈ t.now.reg.tools, tool.remote = none := by
  refine ⟨_, Machine.run_ofFun_iff.mpr rfl, ?_, ?_, ?_⟩
  · decide
  · decide
  · decide

end McpManager

end CognitiveOs.Action
