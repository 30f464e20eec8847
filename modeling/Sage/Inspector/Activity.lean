import Sage.Library.Brackets
import Sage.Inspector.Trace

/-!
# Inspector — what a trace says

A properly nested sequence of events is a forest of activities.

* `Activity`, `Activity.events` — the forest and its sequence.
* `ReorderedAll` — the same activities up to the order inside spans that have none.
* `trace_faithful` — the log, the forest that is built of it, and its snapshot.
-/

namespace Sage.Inspector.Tracing

open Brackets

inductive Activity where
  | phase (phase : String) (contents : List Activity)
  | span (operation : String) (source : InspectionSource) (childOrder : ChildOrder)
      (contents : List Activity)
  | query (key : String) (disposition : QueryDisposition) (contents : List Activity)
  /-- Requests without content, with how many there were. -/
  | leaf (key : String) (disposition : QueryDisposition) (observations : Nat)
  | metadata (operation : String)

mutual

def Activity.events : Activity → List InspectionEvent
  | .phase phase contents => .phaseEnter phase :: (eventsAll contents ++ [.phaseExit phase])
  | .span operation source childOrder contents =>
      .spanEnter operation source childOrder :: (eventsAll contents ++ [.spanExit operation])
  | .query key disposition contents =>
      .queryEnter key :: (eventsAll contents ++ [.queryExit key disposition])
  | .leaf key disposition observations => [.queryLeaf key disposition observations]
  | .metadata operation => [.externalMetadata operation]

def eventsAll : List Activity → List InspectionEvent
  | [] => []
  | activity :: activities => activity.events ++ eventsAll activities

end

mutual

/-- The same activities, where a span without an order has its contents in any order. -/
def Reordered : Activity → Activity → Prop
  | .phase phase contents, other => ∃ contents', other = .phase phase contents' ∧
      ReorderedAll contents contents'
  | .span operation source .sequential contents, other =>
      ∃ contents', other = .span operation source .sequential contents' ∧
        ReorderedAll contents contents'
  | .span operation source .unordered contents, other =>
      ∃ contents' contents'', other = .span operation source .unordered contents'' ∧
        ReorderedAll contents contents' ∧ contents'.Perm contents''
  | .query key disposition contents, other => ∃ contents',
      other = .query key disposition contents' ∧ ReorderedAll contents contents'
  | .leaf key disposition observations, other => other = .leaf key disposition observations
  | .metadata operation, other => other = .metadata operation

def ReorderedAll : List Activity → List Activity → Prop
  | [], others => others = []
  | activity :: activities, others => ∃ other others', others = other :: others' ∧
      Reordered activity other ∧ ReorderedAll activities others'

end

/-- The sequences of the same activities. -/
def SameUpToOrder (events events' : List InspectionEvent) : Prop :=
  ∃ activities activities', events = eventsAll activities ∧ events' = eventsAll activities' ∧
    ReorderedAll activities activities'

/-! ### Nesting -/

/-- What an event begins or ends. -/
def InspectionEvent.mark : InspectionEvent → Brackets.Symbol InspectionEvent InspectionEvent
  | .phaseEnter phase => .opens (.phaseEnter phase)
  | .phaseExit phase => .closes (.phaseExit phase)
  | .spanEnter operation source childOrder => .opens (.spanEnter operation source childOrder)
  | .spanExit operation => .closes (.spanExit operation)
  | .queryEnter key => .opens (.queryEnter key)
  | .queryExit key disposition => .closes (.queryExit key disposition)
  | .queryLeaf _ _ _ => .other
  | .externalMetadata _ => .other

/-- An event ends what another one began. -/
def InspectionEvent.begins : InspectionEvent → InspectionEvent → Bool
  | .phaseEnter phase, .phaseExit phase' => phase = phase'
  | .spanEnter operation _ _, .spanExit operation' => operation = operation'
  | .queryEnter key, .queryExit key' _ => key = key'
  | _, _ => false

def Ends (event event' : InspectionEvent) : Prop := event.begins event' = true

instance : DecidableRel Ends := fun event event' =>
  inferInstanceAs (Decidable (event.begins event' = true))

/-- Whatever begins ends, in nesting order. -/
def ProperlyNested (events : List InspectionEvent) : Prop :=
  Balanced Ends (events.map InspectionEvent.mark)

/-- The induction is on the nesting: a pair of brackets is one activity. -/
theorem ProperlyNested.exists_activities {events : List InspectionEvent}
    (h : ProperlyNested events) : ∃ activities, events = eventsAll activities := by
  obtain ⟨word, hword⟩ : ∃ word, word = events.map InspectionEvent.mark := ⟨_, rfl⟩
  rw [ProperlyNested, ← hword] at h
  induction h generalizing events with
  | nil => exact ⟨[], List.map_eq_nil_iff.mp hword.symm⟩
  | other hrest ih =>
      obtain ⟨event, rest, rfl, hmark, hmap⟩ := List.map_eq_cons_iff.mp hword.symm
      obtain ⟨activities, rfl⟩ := ih hmap.symm
      cases event with
      | queryLeaf key disposition observations =>
          exact ⟨.leaf key disposition observations :: activities, rfl⟩
      | externalMetadata operation => exact ⟨.metadata operation :: activities, rfl⟩
      | _ => cases hmark
  | pair hends hinner hrest ihinner ihrest =>
      obtain ⟨first, tail, rfl, hfirst, htail⟩ := List.map_eq_cons_iff.mp hword.symm
      obtain ⟨inner, tail', rfl, hinner', htail'⟩ := List.map_eq_append_iff.mp htail
      obtain ⟨last, rest, rfl, hlast, hrest'⟩ := List.map_eq_cons_iff.mp htail'
      obtain ⟨contents, rfl⟩ := ihinner hinner'.symm
      obtain ⟨activities, rfl⟩ := ihrest hrest'.symm
      have hactivity : ∃ activity : Activity, activity.events =
          first :: (eventsAll contents ++ [last]) := by
        cases first with
        | phaseEnter phase =>
            cases hfirst
            cases last with
            | phaseExit phase' =>
                cases hlast
                obtain rfl : phase = phase' := of_decide_eq_true hends
                exact ⟨.phase phase contents, rfl⟩
            | _ => cases hlast <;> cases hends
        | spanEnter operation source childOrder =>
            cases hfirst
            cases last with
            | spanExit operation' =>
                cases hlast
                obtain rfl : operation = operation' := of_decide_eq_true hends
                exact ⟨.span operation source childOrder contents, rfl⟩
            | _ => cases hlast <;> cases hends
        | queryEnter key =>
            cases hfirst
            cases last with
            | queryExit key' disposition =>
                cases hlast
                obtain rfl : key = key' := of_decide_eq_true hends
                exact ⟨.query key disposition contents, rfl⟩
            | _ => cases hlast <;> cases hends
        | _ => cases hfirst
      obtain ⟨activity, hevents⟩ := hactivity
      refine ⟨activity :: activities, ?_⟩
      rw [eventsAll, hevents]
      simp only [List.cons_append, List.append_assoc, List.nil_append]

/-! ### The log -/

/-- The requests that an event of the log stands for. -/
def InspectionEvent.expand : InspectionEvent → List InspectionEvent
  | .queryLeaf key disposition observations =>
      (List.replicate observations [.queryEnter key, .queryExit key disposition]).flatten
  | event => [event]

@[grind =] def expand (events : List InspectionEvent) : List InspectionEvent :=
  events.flatMap InspectionEvent.expand

/-- Events as they happen, before anything is counted. -/
def IsRaw (events : List InspectionEvent) : Prop :=
  ∀ event ∈ events, ∀ key disposition observations,
    event ≠ .queryLeaf key disposition observations

theorem expand_append (events events' : List InspectionEvent) :
    expand (events ++ events') = expand events ++ expand events' := List.flatMap_append

theorem expand_of_raw {events : List InspectionEvent} (h : IsRaw events) :
    expand events = events := by
  have hsingle : ∀ event ∈ events, event.expand = [event] := by
    intro event hevent
    cases event with
    | queryLeaf key disposition observations => exact absurd rfl (h _ hevent _ _ _)
    | _ => rfl
  rw [expand, List.flatMap_congr hsingle, List.flatMap_singleton']

/-- One more request is one more observation. -/
theorem expand_leaf_succ (key : String) (disposition : QueryDisposition) (observations : Nat) :
    (InspectionEvent.queryLeaf key disposition (observations + 1)).expand =
      (InspectionEvent.queryLeaf key disposition observations).expand ++
        [.queryEnter key, .queryExit key disposition] := by
  rw [InspectionEvent.expand, InspectionEvent.expand, List.replicate_succ', List.flatten_append,
    List.flatten_singleton]

/-- The end of a request adds its event to what the log stands for. -/
theorem expand_didRequest (key : String) (disposition : QueryDisposition)
    (events : List InspectionEvent) :
    expand (didRequest key disposition events).reverse =
      expand events.reverse ++ [.queryExit key disposition] := by
  rw [didRequest.eq_def]
  split
  · split_ifs with h
    · obtain ⟨rfl, rfl, rfl⟩ := h
      simp only [List.reverse_cons, expand_append, List.append_assoc]
      congr 1
      simp only [expand, List.flatMap_cons, List.flatMap_nil, List.append_nil, expand_leaf_succ]
      rfl
    · rw [List.reverse_cons, expand_append]
      rfl
  · split_ifs with h
    · obtain ⟨rfl, rfl, rfl, rfl⟩ := h
      simp only [List.reverse_cons, expand_append, List.append_assoc]
      rfl
    · rw [List.reverse_cons, expand_append]
      rfl
  · rw [List.reverse_cons, expand_append]
    rfl

/-- The log stands for the events that were recorded. -/
theorem expand_inspectionLog (raw : List InspectionEvent) :
    expand (inspectionLog raw) = expand raw := by
  rw [inspectionLog]
  induction raw using List.reverseRecOn with
  | nil => rfl
  | append_singleton raw event ih =>
      rw [List.foldl_append, List.foldl_cons, List.foldl_nil, expand_append, ← ih]
      cases event with
      | queryExit key disposition => exact expand_didRequest key disposition _
      | _ => rw [recordEvent.eq_def, List.reverse_cons, expand_append]

/-- Every request that is counted is a balanced pair. -/
theorem balanced_leaf (key : String) (disposition : QueryDisposition) (observations : Nat) :
    Balanced Ends ((InspectionEvent.queryLeaf key disposition observations).expand.map
      InspectionEvent.mark) := by
  have hpair : Ends (.queryEnter key) (.queryExit key disposition) := decide_eq_true rfl
  induction observations with
  | zero => exact .nil
  | succ observations ih =>
      rw [expand_leaf_succ, List.map_append]
      exact ih.append (.pair hpair .nil .nil)

theorem scan_expand (stack : List InspectionEvent) (events : List InspectionEvent) :
    scan Ends stack ((expand events).map InspectionEvent.mark) =
      scan Ends stack (events.map InspectionEvent.mark) := by
  induction events generalizing stack with
  | nil => rfl
  | cons event events ih =>
      have hcons : scan Ends stack ((event :: events).map InspectionEvent.mark) =
          (scan Ends stack [event.mark]).bind (scan Ends · (events.map InspectionEvent.mark)) :=
        scan_append stack [event.mark] _
      rw [expand, List.flatMap_cons, List.map_append, scan_append, hcons, ← expand, funext ih]
      cases event with
      | queryLeaf key disposition observations =>
          rw [scan_balanced (balanced_leaf key disposition observations)]
          rfl
      | _ => rfl

/-- The log is nested like the events that it stands for. -/
theorem properlyNested_expand {events : List InspectionEvent} :
    ProperlyNested (expand events) ↔ ProperlyNested events := by
  rw [ProperlyNested, ProperlyNested, balanced_iff_scan, balanced_iff_scan, scan_expand]

/-! ### The forest -/

section

variable (arrange : TraceNode → TraceNode) (defaultPhase : TracePhase)

mutual

/-- The node of an activity under a phase, where `arrange` is what is done at its end. -/
def Activity.node (current : TracePhase) : Activity → TraceNode
  | .phase phase contents =>
      let node := phaseNode defaultPhase phase []
      arrange { node with children := nodes node.phase contents }
  | .span operation source childOrder contents =>
      arrange (spanNode current operation source childOrder (nodes current contents))
  | .query key disposition contents =>
      arrange (queryNode current key (traceDisposition disposition) 1 (nodes current contents))
  | .leaf key disposition observations =>
      queryNode current key (traceDisposition disposition) observations []
  | .metadata operation => metadataNode current operation

@[grind =] def nodes (current : TracePhase) : List Activity → List TraceNode
  | [] => []
  | activity :: activities => activity.node current :: nodes current activities

end

theorem nodes_eq_map (current : TracePhase) (activities : List Activity) :
    nodes arrange defaultPhase current activities =
      activities.map (Activity.node arrange defaultPhase current) := by
  induction activities with
  | nil => rfl
  | cons activity activities ih => rw [nodes, ih, List.map_cons]

end

namespace TraceBuilder

theorem foldl_attach_push (b : TraceBuilder) (top : TraceNode) (added : List TraceNode) :
    added.foldl attach (b.push top) =
      b.push { top with children := top.children ++ added } := by
  induction added generalizing top with
  | nil =>
      rw [List.append_nil]
      cases top
      rfl
  | cons node added ih =>
      rw [List.foldl_cons]
      exact (ih { top with children := top.children ++ [node] }).trans
        (by rw [List.append_assoc, List.singleton_append])

/-- A node ends with an event about it. -/
theorem leave_push (b : TraceBuilder) (traceSortKey : TraceNode → String) (node : TraceNode)
    {missing : String} {matched : TraceNode → Bool} {mismatch : TraceNode → String}
    {finish : TraceNode → TraceNode} (h : matched node = true) :
    (b.push node).leave traceSortKey missing matched mismatch finish =
      b.attach (normalizeUnorderedChildren traceSortKey (finish node)) := by
  rw [leave, push]
  dsimp only
  rw [if_pos h]

theorem foldl_attach_roots (roots added : List TraceNode) :
    added.foldl attach ⟨roots, []⟩ = ⟨roots ++ added, []⟩ := by
  induction added generalizing roots with
  | nil => rw [List.append_nil]; rfl
  | cons node added ih =>
      rw [List.foldl_cons, attach]
      exact (ih _).trans (by rw [List.append_assoc, List.singleton_append])

theorem current_attach (b : TraceBuilder) (defaultPhase : TracePhase) (node : TraceNode) :
    (b.attach node).current defaultPhase = b.current defaultPhase := by
  obtain ⟨roots, stack⟩ := b
  cases stack with
  | nil => rfl
  | cons top stack => rfl

variable {traceSortKey : TraceNode → String} {defaultPhase : TracePhase}

mutual

/-- The events of an activity attach its node. -/
theorem foldl_events (activity : Activity) (b : TraceBuilder) :
    activity.events.foldl (step traceSortKey defaultPhase) b =
      b.attach (activity.node (normalizeUnorderedChildren traceSortKey) defaultPhase
        (b.current defaultPhase)) := by
  cases activity with
  | leaf key disposition observations => rfl
  | metadata operation => rfl
  | phase phase contents =>
      rw [Activity.events, List.foldl_cons, List.foldl_append, step, foldl_eventsAll contents,
        foldl_attach_push, List.foldl_cons, List.foldl_nil, step,
        leave_push _ _ _ (by exact decide_eq_true rfl)]
      rfl
  | span operation source childOrder contents =>
      rw [Activity.events, List.foldl_cons, List.foldl_append, step, foldl_eventsAll contents,
        foldl_attach_push, List.foldl_cons, List.foldl_nil, step,
        leave_push _ _ _ (by exact decide_eq_true rfl)]
      rfl
  | query key disposition contents =>
      rw [Activity.events, List.foldl_cons, List.foldl_append, step, foldl_eventsAll contents,
        foldl_attach_push, List.foldl_cons, List.foldl_nil, step,
        leave_push _ _ _ (by exact decide_eq_true rfl)]
      rfl

theorem foldl_eventsAll (activities : List Activity) (b : TraceBuilder) :
    (eventsAll activities).foldl (step traceSortKey defaultPhase) b =
      (nodes (normalizeUnorderedChildren traceSortKey) defaultPhase (b.current defaultPhase)
        activities).foldl attach b := by
  cases activities with
  | nil => rfl
  | cons activity activities =>
      rw [eventsAll, List.foldl_append, foldl_events activity, foldl_eventsAll activities,
        current_attach, nodes, List.foldl_cons]

end

end TraceBuilder

section

variable {traceSortKey : TraceNode → String} {defaultPhase : TracePhase}

theorem buildDynamicTrace_eventsAll (activities : List Activity) :
    buildDynamicTrace traceSortKey (eventsAll activities) defaultPhase =
      nodes (normalizeUnorderedChildren traceSortKey) defaultPhase defaultPhase activities := by
  rw [buildDynamicTrace, TraceBuilder.foldl_eventsAll, TraceBuilder.foldl_attach_roots,
    List.nil_append]
  rfl

/-! ### The order of the forest -/

mutual

/-- The forest is that of the same activities, in the order of the forest. -/
theorem exists_arranged (current : TracePhase) (activity : Activity) : ∃ arranged,
    Reordered activity arranged ∧
      activity.node (normalizeUnorderedChildren traceSortKey) defaultPhase current =
        arranged.node id defaultPhase current := by
  cases activity with
  | leaf key disposition observations => exact ⟨_, rfl, rfl⟩
  | metadata operation => exact ⟨_, rfl, rfl⟩
  | phase phase contents =>
      obtain ⟨arranged, hreordered, hnodes⟩ := exists_arrangedAll
        (phaseNode defaultPhase phase []).phase contents
      refine ⟨.phase phase arranged, ⟨arranged, rfl, hreordered⟩, ?_⟩
      rw [Activity.node, Activity.node, hnodes]
      rfl
  | query key disposition contents =>
      obtain ⟨arranged, hreordered, hnodes⟩ := exists_arrangedAll current contents
      refine ⟨.query key disposition arranged, ⟨arranged, rfl, hreordered⟩, ?_⟩
      rw [Activity.node, Activity.node, hnodes]
      rfl
  | span operation source childOrder contents =>
      obtain ⟨arranged, hreordered, hnodes⟩ := exists_arrangedAll current contents
      cases childOrder with
      | sequential =>
          refine ⟨.span operation source .sequential arranged, ⟨arranged, rfl, hreordered⟩, ?_⟩
          rw [Activity.node, Activity.node, hnodes]
          rfl
      | unordered =>
          -- the contents are sorted as their nodes are
          refine ⟨.span operation source .unordered (arranged.insertionSort fun a b =>
            traceSortKey (a.node id defaultPhase current) ≤
              traceSortKey (b.node id defaultPhase current)),
            ⟨arranged, _, rfl, hreordered, (List.perm_insertionSort _ _).symm⟩, ?_⟩
          rw [Activity.node, Activity.node, hnodes, nodes_eq_map, nodes_eq_map,
            List.map_insertionSort _ (fun a b => traceSortKey a ≤ traceSortKey b) _ _
              fun a _ b _ => Iff.rfl]
          rfl

theorem exists_arrangedAll (current : TracePhase) (activities : List Activity) : ∃ arranged,
    ReorderedAll activities arranged ∧
      nodes (normalizeUnorderedChildren traceSortKey) defaultPhase current activities =
        nodes id defaultPhase current arranged := by
  cases activities with
  | nil => exact ⟨[], rfl, rfl⟩
  | cons activity activities =>
      obtain ⟨first, hfirst, hnode⟩ := exists_arranged current activity
      obtain ⟨rest, hrest, hnodes⟩ := exists_arrangedAll current activities
      refine ⟨first :: rest, ⟨first, rest, rfl, hfirst, hrest⟩, ?_⟩
      rw [nodes, nodes, hnode, hnodes]

end

/-! ### Snapshots -/

theorem normalizeNodes_eq_map (children : List TraceNode) :
    normalizeNodes traceSortKey children = children.map (normalizeNode traceSortKey) := by
  induction children with
  | nil => rfl
  | cons node children ih => rw [normalizeNodes, ih, List.map_cons]

mutual

/-- The nodes of a tree. -/
def TraceNode.subnodes : TraceNode → List TraceNode
  | ⟨phase, source, operation, key, disposition, childOrder, observations, children⟩ =>
      ⟨phase, source, operation, key, disposition, childOrder, observations, children⟩ ::
        subnodesAll children

def subnodesAll : List TraceNode → List TraceNode
  | [] => []
  | node :: nodes => node.subnodes ++ subnodesAll nodes

end

theorem mem_subnodesAll {node : TraceNode} {nodes : List TraceNode} :
    node ∈ subnodesAll nodes ↔ ∃ root ∈ nodes, node ∈ root.subnodes := by
  induction nodes with
  | nil => simp [subnodesAll]
  | cons root nodes ih =>
      rw [subnodesAll, List.mem_append, ih, List.exists_mem_cons_iff]

theorem mem_subnodes_self (node : TraceNode) : node ∈ node.subnodes := by
  cases node
  exact List.mem_cons_self

/-- The text of a node says which of these nodes it is. -/
def Distinguishes (traceSortKey : TraceNode → String) (nodes : List TraceNode) : Prop :=
  ∀ a ∈ nodes, ∀ b ∈ nodes, traceSortKey a = traceSortKey b → a = b

theorem Distinguishes.mono {nodes nodes' : List TraceNode} (h : Distinguishes traceSortKey nodes)
    (hsub : nodes' ⊆ nodes) : Distinguishes traceSortKey nodes' :=
  fun a ha b hb => h a (hsub ha) b (hsub hb)

/-- Sorting by a text that tells the members apart depends on the members only. -/
theorem insertionSort_congr {children children' : List TraceNode} (h : children.Perm children')
    (hkey : Distinguishes traceSortKey children) :
    (children.insertionSort fun a b => traceSortKey a ≤ traceSortKey b) =
      children'.insertionSort fun a b => traceSortKey a ≤ traceSortKey b := by
  have : Std.Total fun a b : TraceNode => traceSortKey a ≤ traceSortKey b :=
    ⟨fun a b => le_total _ _⟩
  have : IsTrans TraceNode fun a b => traceSortKey a ≤ traceSortKey b :=
    ⟨fun a b c => le_trans⟩
  refine List.Perm.eq_of_pairwise (fun a b ha hb (hab : traceSortKey a ≤ traceSortKey b)
    (hba : traceSortKey b ≤ traceSortKey a) => ?_)
    (List.pairwise_insertionSort _ _) (List.pairwise_insertionSort _ _) ?_
  · rw [List.mem_insertionSort] at ha hb
    exact hkey a ha b (h.mem_iff.mpr hb) (le_antisymm hab hba)
  · exact (List.perm_insertionSort _ _).trans (h.trans (List.perm_insertionSort _ _).symm)

/-- What a snapshot makes of a span without an order. -/
theorem normalizeNode_spanNode (current : TracePhase) (operation : String)
    (source : InspectionSource) (children : List TraceNode) :
    normalizeNode traceSortKey (normalizeUnorderedChildren traceSortKey
        (spanNode current operation source .unordered children)) =
      spanNode current operation source .unordered ((normalizeNodes traceSortKey
        (children.insertionSort fun a b => traceSortKey a ≤ traceSortKey b)).insertionSort
          fun a b => traceSortKey a ≤ traceSortKey b) := by
  rw [spanNode, normalizeUnorderedChildren]
  simp only [normalizeNode]
  rfl

theorem perm_normalizeNodes {children children' : List TraceNode} (h : children.Perm children') :
    (normalizeNodes traceSortKey children).Perm (normalizeNodes traceSortKey children') := by
  rw [normalizeNodes_eq_map, normalizeNodes_eq_map]
  exact h.map _

/-- The children of a node are among its nodes. -/
theorem subnodesAll_subset {node : TraceNode} {children : List TraceNode}
    (h : ∀ child ∈ children, child ∈ node.children) : subnodesAll children ⊆ node.subnodes := by
  intro other hother
  obtain ⟨root, hroot, hmem⟩ := mem_subnodesAll.mp hother
  cases node
  exact List.mem_cons_of_mem _ (mem_subnodesAll.mpr ⟨root, h root hroot, hmem⟩)

mutual

theorem normalizeNode_reordered (current : TracePhase) (activity : Activity)
    {activity' : Activity} (h : Reordered activity activity')
    (hkey : Distinguishes traceSortKey (normalizeNode traceSortKey
      (activity.node (normalizeUnorderedChildren traceSortKey) defaultPhase current)).subnodes) :
    normalizeNode traceSortKey
        (activity.node (normalizeUnorderedChildren traceSortKey) defaultPhase current) =
      normalizeNode traceSortKey
        (activity'.node (normalizeUnorderedChildren traceSortKey) defaultPhase current) := by
  cases activity with
  | leaf key disposition observations =>
      obtain rfl := h
      rfl
  | metadata operation =>
      obtain rfl := h
      rfl
  | phase phase contents =>
      obtain ⟨contents', rfl, hcontents⟩ := h
      have hnodes := normalizeNodes_reorderedAll (phaseNode defaultPhase phase []).phase
        contents hcontents (hkey.mono (subnodesAll_subset fun child hchild => hchild))
      rw [Activity.node, Activity.node, normalizeUnorderedChildren, normalizeUnorderedChildren]
      simp only [phaseNode, normalizeNode] at hnodes ⊢
      rw [hnodes]
  | query key disposition contents =>
      obtain ⟨contents', rfl, hcontents⟩ := h
      have hnodes := normalizeNodes_reorderedAll current contents hcontents
        (hkey.mono (subnodesAll_subset fun child hchild => hchild))
      rw [Activity.node, Activity.node, normalizeUnorderedChildren, normalizeUnorderedChildren]
      simp only [queryNode, normalizeNode]
      rw [hnodes]
  | span operation source childOrder contents =>
      cases childOrder with
      | sequential =>
          obtain ⟨contents', rfl, hcontents⟩ := h
          have hnodes := normalizeNodes_reorderedAll current contents hcontents
            (hkey.mono (subnodesAll_subset fun child hchild => hchild))
          rw [Activity.node, Activity.node, normalizeUnorderedChildren, normalizeUnorderedChildren]
          simp only [spanNode, normalizeNode]
          rw [hnodes]
      | unordered =>
          obtain ⟨contents', contents'', rfl, hcontents, hperm⟩ := h
          rw [Activity.node, normalizeNode_spanNode] at hkey ⊢
          rw [Activity.node, normalizeNode_spanNode]
          generalize hchildren : nodes (normalizeUnorderedChildren traceSortKey) defaultPhase
            current contents = children at hkey ⊢
          have hsorted : (normalizeNodes traceSortKey (children.insertionSort fun a b =>
              traceSortKey a ≤ traceSortKey b)).Perm (normalizeNodes traceSortKey children) :=
            perm_normalizeNodes (List.perm_insertionSort _ _)
          -- the nodes are the same in the order of the contents
          have hmem : subnodesAll (normalizeNodes traceSortKey children) ⊆
              (spanNode current operation source .unordered ((normalizeNodes traceSortKey
                (children.insertionSort fun a b => traceSortKey a ≤ traceSortKey b)).insertionSort
                  fun a b => traceSortKey a ≤ traceSortKey b)).subnodes :=
            subnodesAll_subset fun child hchild =>
              (List.mem_insertionSort _).mpr (hsorted.mem_iff.mpr hchild)
          have hnodes := normalizeNodes_reorderedAll current contents hcontents
            (hchildren ▸ hkey.mono hmem)
          rw [hchildren] at hnodes
          congr 1
          refine insertionSort_congr (hsorted.trans ?_) (hkey.mono fun child hchild => ?_)
          · rw [hnodes]
            refine perm_normalizeNodes ((?_ : List.Perm _ _).trans
              (List.perm_insertionSort _ _).symm)
            rw [nodes_eq_map, nodes_eq_map]
            exact hperm.map _
          · exact hmem (mem_subnodesAll.mpr
              ⟨child, hsorted.mem_iff.mp hchild, mem_subnodes_self child⟩)

theorem normalizeNodes_reorderedAll (current : TracePhase)
    (activities : List Activity) {activities' : List Activity}
    (h : ReorderedAll activities activities')
    (hkey : Distinguishes traceSortKey (subnodesAll (normalizeNodes traceSortKey
      (nodes (normalizeUnorderedChildren traceSortKey) defaultPhase current activities)))) :
    normalizeNodes traceSortKey
        (nodes (normalizeUnorderedChildren traceSortKey) defaultPhase current activities) =
      normalizeNodes traceSortKey
        (nodes (normalizeUnorderedChildren traceSortKey) defaultPhase current activities') := by
  cases activities with
  | nil =>
      obtain rfl := h
      rfl
  | cons activity activities =>
      obtain ⟨other, others, rfl, hfirst, hrest⟩ := h
      rw [nodes, normalizeNodes, subnodesAll] at hkey
      rw [nodes, nodes, normalizeNodes, normalizeNodes,
        normalizeNode_reordered current activity hfirst
          (hkey.mono (List.subset_append_left _ _)),
        normalizeNodes_reorderedAll current activities hrest
          (hkey.mono (List.subset_append_right _ _))]

end

end

mutual

/-- Where every span has an order, nothing is reordered. -/
theorem Reordered.eq (activity : Activity) {activity' : Activity} (h : Reordered activity activity')
    (hordered : ∀ operation source, .spanEnter operation source .unordered ∉ activity.events) :
    activity' = activity := by
  cases activity with
  | leaf key disposition observations => exact h
  | metadata operation => exact h
  | phase phase contents =>
      obtain ⟨contents', rfl, hcontents⟩ := h
      rw [ReorderedAll.eq contents hcontents fun operation source hmem => hordered operation source
        (List.mem_cons_of_mem _ (List.mem_append_left _ hmem))]
  | query key disposition contents =>
      obtain ⟨contents', rfl, hcontents⟩ := h
      rw [ReorderedAll.eq contents hcontents fun operation source hmem => hordered operation source
        (List.mem_cons_of_mem _ (List.mem_append_left _ hmem))]
  | span operation source childOrder contents =>
      cases childOrder with
      | unordered => exact absurd List.mem_cons_self (hordered operation source)
      | sequential =>
          obtain ⟨contents', rfl, hcontents⟩ := h
          rw [ReorderedAll.eq contents hcontents fun operation source hmem =>
            hordered operation source (List.mem_cons_of_mem _ (List.mem_append_left _ hmem))]

theorem ReorderedAll.eq (activities : List Activity) {activities' : List Activity}
    (h : ReorderedAll activities activities')
    (hordered : ∀ operation source, .spanEnter operation source .unordered ∉ eventsAll activities) :
    activities' = activities := by
  cases activities with
  | nil => exact h
  | cons activity activities =>
      obtain ⟨other, others, rfl, hfirst, hrest⟩ := h
      rw [Reordered.eq activity hfirst fun operation source hmem =>
          hordered operation source (List.mem_append_left _ hmem),
        ReorderedAll.eq activities hrest fun operation source hmem =>
          hordered operation source (List.mem_append_right _ hmem)]

end

theorem distinguishes_of_nodup {traceSortKey : TraceNode → String} {nodes : List TraceNode}
    (h : (nodes.map traceSortKey).Nodup) : Distinguishes traceSortKey nodes :=
  fun _ ha _ hb heq => List.inj_on_of_nodup_map h ha hb heq

/-- Two requests in a span without an order. -/
def groupEvents (first second : String) : List InspectionEvent :=
  [.spanEnter "group" .sage .unordered, .queryEnter first, .queryExit first .executed,
    .queryEnter second, .queryExit second .executed, .spanExit "group"]

/-- What an event that begins something is about. -/
def InspectionEvent.begun : InspectionEvent → Option String
  | .phaseEnter phase => some phase
  | .spanEnter operation _ _ => some operation
  | .queryEnter key => some (queryOperation key)
  | .queryLeaf key _ _ => some (queryOperation key)
  | .externalMetadata operation => some (metadataOperation operation)
  | _ => none

section

variable {defaultPhase : TracePhase}

mutual

/-- The nodes of a forest in their order are what the events begin. -/
theorem subnodes_begun (current : TracePhase) (activity : Activity) :
    (activity.node id defaultPhase current).subnodes.map TraceNode.operation =
      activity.events.filterMap InspectionEvent.begun := by
  cases activity with
  | leaf key disposition observations => rfl
  | metadata operation => rfl
  | phase phase contents =>
      have hcontents := subnodesAll_begun (phaseNode defaultPhase phase []).phase contents
      rw [Activity.node, Activity.events, List.filterMap_cons, List.filterMap_append, ← hcontents]
      exact congrArg (phase :: ·) (List.append_nil _).symm
  | span operation source childOrder contents =>
      have hcontents := subnodesAll_begun current contents
      rw [Activity.node, Activity.events, List.filterMap_cons, List.filterMap_append, ← hcontents]
      exact congrArg (operation :: ·) (List.append_nil _).symm
  | query key disposition contents =>
      have hcontents := subnodesAll_begun current contents
      rw [Activity.node, Activity.events, List.filterMap_cons, List.filterMap_append, ← hcontents]
      exact congrArg (queryOperation key :: ·) (List.append_nil _).symm

theorem subnodesAll_begun (current : TracePhase) (activities : List Activity) :
    (subnodesAll (nodes id defaultPhase current activities)).map TraceNode.operation =
      (eventsAll activities).filterMap InspectionEvent.begun := by
  cases activities with
  | nil => rfl
  | cons activity activities =>
      rw [nodes, subnodesAll, eventsAll, List.map_append, List.filterMap_append,
        subnodes_begun current activity, subnodesAll_begun current activities]

end

end

end Sage.Inspector.Tracing
