import CognitiveOs.Infra.Json
import Mathlib.Data.List.Nodup

/-!
# The tool registry

`action/tools.c`: the registered tools, at most one under each name. A tool is its name and,
when it forwards to an MCP server, where it forwards to.
-/

namespace CognitiveOs.Action

open Infra

/-- `mcp_tool_ud`: the server a remote tool calls, and the name it has there. -/
structure Binding where
  server : Text
  tool : Text
  deriving DecidableEq

structure Tool where
  name : Text
  remote : Option Binding := none
  deriving DecidableEq

structure ToolRegistry where
  tools : List Tool := []
  nodup : (tools.map Tool.name).Nodup := by simp

namespace ToolRegistry

variable (reg : ToolRegistry)

/-- `tool_find`. -/
def find (name : Text) : Option Tool :=
  reg.tools.find? fun t => t.name = name

def replaceTool (tools : List Tool) (t : Tool) : List Tool :=
  tools.map fun old => if old.name = t.name then t else old

theorem map_name_replaceTool (tools : List Tool) (t : Tool) :
    (replaceTool tools t).map Tool.name = tools.map Tool.name := by
  induction tools with
  | nil => rfl
  | cons old tools ih =>
    rw [replaceTool, List.map_cons, List.map_cons, List.map_cons]
    congr 1
    split
    · rename_i same
      exact same.symm
    · rfl

/-- `tool_register_ex` with `replace`. -/
def register (t : Tool) : ToolRegistry :=
  if known : t.name ∈ reg.tools.map Tool.name then
    { tools := replaceTool reg.tools t
      nodup := by
        rw [map_name_replaceTool]
        exact reg.nodup }
  else
    { tools := reg.tools ++ [t]
      nodup := by
        rw [List.map_append, List.nodup_append]
        refine ⟨reg.nodup, by simp, ?_⟩
        rintro name member other last rfl
        rw [List.mem_singleton.mp last] at member
        exact known member }

/-- `tool_unregister`. -/
def unregister (name : Text) : ToolRegistry :=
  { tools := reg.tools.filter fun t => t.name ≠ name
    nodup := (List.filter_sublist.map Tool.name).nodup reg.nodup }

variable {reg}

theorem eq_of_name {s t : Tool} (first : s ∈ reg.tools) (second : t ∈ reg.tools)
    (same : s.name = t.name) : s = t :=
  List.inj_on_of_nodup_map reg.nodup first second same

theorem find_eq_some_iff {name : Text} {t : Tool} :
    reg.find name = some t ↔ t ∈ reg.tools ∧ t.name = name := by
  constructor
  · intro found
    have same := List.find?_some found
    exact ⟨List.mem_of_find?_eq_some found, of_decide_eq_true same⟩
  · rintro ⟨member, rfl⟩
    cases found : reg.find t.name with
    | none => simpa using List.find?_eq_none.mp found t member
    | some s =>
      have same := List.find?_some found
      rw [eq_of_name (List.mem_of_find?_eq_some found) member (of_decide_eq_true same)]

@[simp] theorem mem_register {s t : Tool} :
    s ∈ (reg.register t).tools ↔ s = t ∨ s ∈ reg.tools ∧ s.name ≠ t.name := by
  unfold register
  split
  · rename_i known
    simp only [replaceTool, List.mem_map]
    constructor
    · rintro ⟨old, member, rfl⟩
      split
      · exact Or.inl rfl
      · exact Or.inr ⟨member, ‹_›⟩
    · rintro (rfl | ⟨member, other⟩)
      · rcases List.mem_map.mp known with ⟨old, member, same⟩
        exact ⟨old, member, if_pos same⟩
      · exact ⟨s, member, if_neg other⟩
  · rename_i fresh
    simp only [List.mem_append, List.mem_singleton]
    constructor
    · rintro (member | rfl)
      · refine Or.inr ⟨member, ?_⟩
        intro same
        exact fresh (same ▸ List.mem_map_of_mem member)
      · exact Or.inl rfl
    · rintro (rfl | ⟨member, -⟩)
      · exact Or.inr rfl
      · exact Or.inl member

@[simp] theorem mem_unregister {name : Text} {s : Tool} :
    s ∈ (reg.unregister name).tools ↔ s ∈ reg.tools ∧ s.name ≠ name := by
  simp [unregister]

end ToolRegistry

end CognitiveOs.Action
