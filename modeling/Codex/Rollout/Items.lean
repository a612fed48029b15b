import Codex.Lib.Trim

/-! The records of `history/src/lib.rs` without those of retained context, and the rules for turn
boundaries and contextual items: those frozen in
`thread-store/src/local/rollout_migration/rollback.rs`, and those of
`core/src/context_manager/history.rs` and `core/src/event_mapping.rs`. Fields that none of the
modelled functions reads are kept together in `unread`. -/

namespace Codex.Rollout
open Codex.Lib

inductive ImageReference
  | inline (imageUrl : Text)
  | file (fileId : Text)
  deriving DecidableEq

inductive ContentItem
  | inputText (text : Text)
  | inputImage (image : ImageReference)
  | inputAudio (audioUrl : Text)
  | outputText (text : Text)
  deriving DecidableEq

inductive AgentMessageInputContent
  | inputText (text : Text)
  | encryptedContent (encryptedContent : Text)
  deriving DecidableEq

structure Passthrough where
  turnId : Option Text
  contentItemKinds : Option (List Text)
  unread : Text
  deriving DecidableEq

inductive ResponseItem
  | message (role : Text) (content : List ContentItem) (passthrough : Option Passthrough)
      (unread : Text)
  | agentMessage (id : Option Text) (author recipient : Text)
      (content : List AgentMessageInputContent) (passthrough : Option Passthrough)
  | functionCallOutput (output unread : Text)
  | customToolCallOutput (output unread : Text)
  | configurationUpdate (unread : Text)
  | compactionTrigger (unread : Text)
  | other
  -- the kinds that are recorded as they are: calls, reasoning, compaction outputs
  | recorded (unread : Text)
  deriving DecidableEq

structure HarnessMetadata where
  historyTruncationTokenLimit : Option Nat
  harnessAuthoredConfiguration : Bool
  unread : Text
  deriving DecidableEq

structure ResponseItemEnvelope where
  item : ResponseItem
  metadata : Option HarnessMetadata
  deriving DecidableEq

/-- `ResponseItem::turn_id` of the items that rollback asks for it. -/
def ResponseItem.turnId : ResponseItem → Option Text
  | .message _ _ passthrough _ => (passthrough.bind (·.turnId)).filter (· ≠ [])
  | .agentMessage _ _ _ _ passthrough => (passthrough.bind (·.turnId)).filter (· ≠ [])
  | _ => none

structure InterAgentCommunication where
  id : Option Text
  author : Text
  recipient : Text
  content : Text
  encryptedContent : Option Text
  passthrough : Option Passthrough
  triggerTurn : Bool
  unread : Text
  deriving DecidableEq

def InterAgentCommunication.toModelInputItem (c : InterAgentCommunication) : ResponseItem :=
  let content := match c.encryptedContent with
    | some encrypted =>
      let messageType := if c.triggerTurn then "NEW_TASK".toList else "MESSAGE".toList
      [.inputText ("Message Type: ".toList ++ messageType ++ "\nTask name: ".toList ++
        c.recipient ++ "\nSender: ".toList ++ c.author ++ "\nPayload:\n".toList),
        .encryptedContent encrypted]
    | none => [.inputText c.content]
  .agentMessage c.id c.author c.recipient content c.passthrough

inductive CyberAccessProgram
  | standard
  | daybreakBlue
  | daybreakRed
  deriving DecidableEq

structure PreviousTurnSettings where
  model : Text
  cyberAccessProgram : Option CyberAccessProgram
  compHash : Option Text
  realtimeActive : Option Bool
  deriving DecidableEq

structure CompactionResumeMetadata where
  lastStartedTurnId : Option Text
  previousTurnSettings : Option PreviousTurnSettings
  unread : Text
  deriving DecidableEq

structure TurnContextItem where
  turnId : Option Text
  model : Text
  cyberAccessProgram : Option CyberAccessProgram
  compHash : Option Text
  realtimeActive : Option Bool
  unread : Text
  deriving DecidableEq

structure CompactedItem where
  message : Text
  replacementHistory : Option (List ResponseItemEnvelope)
  mcpResourceOrigins : Option Text
  windowNumber : Option Nat
  resumeMetadata : Option CompactionResumeMetadata
  unread : Text
  deriving DecidableEq

inductive UserMessageImageKind
  | inline
  | file
  deriving DecidableEq

inductive ImageDetail
  | auto
  | low
  | high
  | original
  deriving DecidableEq

structure UserMessageEvent where
  clientId : Option Text
  message : Text
  images : Option (List Text)
  imageDetails : List (Option ImageDetail)
  fileIds : Option (List Text)
  fileIdDetails : List (Option ImageDetail)
  imageOrder : List UserMessageImageKind
  localImages : List Text
  localImageDetails : List (Option ImageDetail)
  audio : Option (List Text)
  localAudio : List Text
  textElements : List Text
  deriving DecidableEq

structure TurnOutcome where
  error : Option Text
  unread : Text
  deriving DecidableEq

structure CallEvent where
  callId : Text
  unread : Text
  deriving DecidableEq

structure ReviewModeEvent where
  itemId : Option Text
  unread : Text
  deriving DecidableEq

inductive TurnItemKind
  | userMessage
  | functionCallOutput
  | hookPrompt
  | agentMessage
  | reasoning
  | commandExecution
  | dynamicToolCall
  | collabAgentToolCall
  | subAgentActivity
  | webSearch
  | imageView
  | extension
  | imageGeneration
  | enteredReviewMode
  | exitedReviewMode
  | fileChange
  | mcpToolCall
  | contextCompaction
  deriving DecidableEq

inductive LifecycleItem
  | plan (id text : Text)
  | item (kind : TurnItemKind) (id unread : Text)
  deriving DecidableEq

/-- The calls whose events do not name a turn. -/
inductive ActiveTurnCall
  | webSearchBegin
  | webSearchEnd
  | viewImageToolCall
  | imageGenerationBegin
  | imageGenerationEnd
  | collabAgentSpawnBegin
  | collabAgentSpawnEnd
  | collabAgentInteractionBegin
  | collabAgentInteractionEnd
  | subAgentActivity
  | collabWaitingBegin
  | collabWaitingEnd
  | collabCloseBegin
  | collabCloseEnd
  | collabResumeBegin
  | collabResumeEnd
  deriving DecidableEq

/-- The calls whose events name a turn, or have an empty turn id. -/
inductive TurnCall
  | applyPatchApprovalRequest
  | patchApplyBegin
  | patchApplyEnd
  | dynamicToolCallRequest
  | dynamicToolCallResponse
  | mcpToolCallBegin
  | mcpToolCallEnd
  deriving DecidableEq

inductive GuardianAssessmentStatus
  | inProgress
  | approved
  | denied
  | timedOut
  | aborted
  deriving DecidableEq

inductive GuardianAssessmentAction
  | command
  | execve
  | writeStdin
  | applyPatch
  | networkAccess
  | mcpToolCall
  | requestPermissions
  deriving DecidableEq

structure GuardianAssessmentEvent where
  turnId : Text
  status : GuardianAssessmentStatus
  action : GuardianAssessmentAction
  targetItemId : Option Text
  unread : Text
  deriving DecidableEq

/-- `affecting` are the kinds that change the status of a turn. -/
inductive CodexErrorInfo
  | threadRollbackFailed
  | activeTurnNotSteerable
  | affecting (unread : Text)
  deriving DecidableEq

inductive EventMsg
  | threadRolledBack (numTurns : Nat)
  | turnStarted (turnId unread : Text)
  | turnComplete (turnId : Text) (outcome : TurnOutcome)
  | turnAborted (turnId : Option Text) (outcome : TurnOutcome)
  | userMessage (event : UserMessageEvent)
  | agentMessage (message unread : Text)
  | agentReasoning (text : Text)
  | agentReasoningRawContent (text : Text)
  | itemStarted (turnId : Text) (item : LifecycleItem)
  | itemCompleted (turnId : Text) (item : LifecycleItem)
  | execCommandBegin (turnId : Text) (call : CallEvent)
  | execCommandEnd (turnId : Text) (call : CallEvent)
  | guardianAssessment (event : GuardianAssessmentEvent)
  | turnCall (kind : TurnCall) (turnId : Text) (call : CallEvent)
  | activeTurnCall (kind : ActiveTurnCall) (call : CallEvent)
  | contextCompacted
  | enteredReviewMode (turnId : Option Text) (item : ReviewModeEvent)
  | exitedReviewMode (turnId : Option Text) (item : ReviewModeEvent)
  | error (info : Option CodexErrorInfo) (message : Text)
  | other (unread : Text)
  deriving DecidableEq

inductive RolloutItem
  | sessionMeta (unread : Text)
  | responseItem (response : ResponseItemEnvelope)
  | interAgentCommunication (communication : InterAgentCommunication)
  | interAgentCommunicationMetadata (triggerTurn : Bool)
  | compacted (item : CompactedItem)
  | turnContext (context : TurnContextItem)
  | tokenUsageRecord (turnId unread : Text)
  | worldState (full : Bool) (unread : Text)
  | securityRiskScore (unread : Text)
  | eventMsg (event : EventMsg)
  | realtimeItem (unread : Text)
  deriving DecidableEq

inductive ThreadHistoryMode
  | legacy
  | paginated
  deriving DecidableEq

structure Rules where
  /-- `parse_hook_prompt_fragment(text).is_some()` -/
  isHookPrompt : Text → Bool
  /-- whether a text decodes as an `InterAgentCommunication` -/
  isCommunication : Text → Bool
  /-- `is_standard_contextual_user_text`, the matchers that core has registered -/
  isStandardContextualUserText : Text → Bool
  summaryPrefix : Text
  /-- `truncate_function_output_payload` under the limit of the item, or else of the model -/
  truncateOutput : Option Nat → Text → Text
  /-- `build_compacted_history` of the user messages of a history and a summary -/
  buildCompactedHistory : List ResponseItemEnvelope → Text → List ResponseItemEnvelope

/-- `candidate.eq_ignore_ascii_case(start)` for the front of a text. -/
def startsWithIgnoreCase (start text : Text) : Bool :=
  (text.take start.length).map Char.toLower = start.map Char.toLower

def endsWithIgnoreCase (suffix text : Text) : Bool :=
  (text.drop (text.length - suffix.length)).map Char.toLower = suffix.map Char.toLower

def anyInputText (p : Text → Bool) (content : List ContentItem) : Bool :=
  content.any fun
    | .inputText text => p text
    | _ => false

def hasContextualPrefix (prefixes : List String) (text : Text) : Bool :=
  prefixes.any fun start => startsWithIgnoreCase start.toList (text.dropWhile Text.isWhitespace)

def isMessageContent (r : Rules) : List ContentItem → Bool
  | [.inputText text] => r.isCommunication text
  | [.outputText text] => r.isCommunication text
  | _ => false

def isKnownContextualUserText (r : Rules) (text : Text) : Bool :=
  let text := Text.trim text
  let within (start stop : String) := start.toList.isPrefixOf text && stop.toList.isSuffixOf text
  r.isHookPrompt text ||
    within "# AGENTS.md instructions" "</INSTRUCTIONS>" ||
    within "<environment_context>" "</environment_context>" ||
    within "<skill>" "</skill>" ||
    within "<user_shell_command>" "</user_shell_command>" ||
    within "<turn_aborted>" "</turn_aborted>" ||
    within "<subagent_notification>" "</subagent_notification>" ||
    within "<recommended_plugins>" "</recommended_plugins>" ||
    within "<goal_context>" "</goal_context>" ||
    ("<external_".toList.isPrefixOf text &&
      match Text.splitOnce ">".toList text with
      | some (start, _) =>
        let key := start.drop "<external_".length
        ("</external_".toList ++ key ++ ">".toList).isSuffixOf text
      | none => false) ||
    within "<codex_internal_context" "</codex_internal_context>" ||
    within "Warning: The maximum number of unified exec processes you can keep open is" "" ||
    within "Warning: apply_patch was requested via "
      "Use the apply_patch tool instead of exec_command." ||
    within "Warning: Your account was flagged for potentially high-risk cyber activity" ""

def knownDeveloperPrefixes : List String :=
  ["<permissions instructions>", "<model_switch>", "<managed_developer_instructions>",
    "<apps_instructions>", "<collaboration_mode>", "<multi_agent_mode>",
    "<environments_instructions>", "<git_attribution>", "<plugins_instructions>",
    "<realtime_conversation>", "<skills_instructions>", "<tools>", "<personality_spec>",
    "<token_budget>", "<context_window>", "<context_window_guidance>", "<rollout_budget>"]

def contextualDeveloperPrefixes : List String :=
  ["<permissions instructions>", "Approved command prefix saved:", "<model_switch>",
    "<managed_developer_instructions>", "<persistent_mode>", "<apps_instructions>",
    "<collaboration_mode>", "<multi_agent_role>", "<multi_agent_mode>",
    "<environments_instructions>", "<git_attribution>", "<plugins_instructions>",
    "<realtime_conversation>", "<skills_instructions>", "<tools>", "<personality_spec>",
    "<token_budget>", "<context_window>", "<context_window_guidance>", "<rollout_budget>"]

def countsAsBoundary (r : Rules) : ResponseItem → Bool
  | .agentMessage .. => true
  | .message role content _ _ =>
    (role = "user".toList && !anyInputText (isKnownContextualUserText r) content) ||
      (role = "assistant".toList && isMessageContent r content)
  | _ => false

def isPreTurnContextUpdate (r : Rules) : ResponseItem → Bool
  | .message role content _ _ =>
    (role = "user".toList && anyInputText (isKnownContextualUserText r) content) ||
      (role = "developer".toList &&
        anyInputText (hasContextualPrefix knownDeveloperPrefixes) content)
  | _ => false

def isContextualUserMessageContent (r : Rules) : List ContentItem → Bool :=
  anyInputText fun text => r.isHookPrompt text || r.isStandardContextualUserText text

def isSummaryMessage (r : Rules) (message : Text) : Bool :=
  (r.summaryPrefix ++ ['\n']).isPrefixOf message

def isUserTurnBoundary (r : Rules) : ResponseItem → Bool
  | .agentMessage .. => true
  | .message role content _ _ =>
    (role = "user".toList && !isContextualUserMessageContent r content &&
        !anyInputText (isSummaryMessage r) content) ||
      (role = "assistant".toList && isMessageContent r content)
  | _ => false

/-- The items that `trim_pre_turn_context_updates` takes back. -/
def isTrimmed (r : Rules) : ResponseItem → Bool
  | .message role content _ _ =>
    (role = "developer".toList &&
        anyInputText (hasContextualPrefix contextualDeveloperPrefixes) content) ||
      (role = "user".toList && isContextualUserMessageContent r content)
  | _ => false

def plainRules : Rules where
  isHookPrompt _ := false
  isCommunication _ := false
  isStandardContextualUserText _ := false
  summaryPrefix := "Another language model started to solve this problem".toList
  truncateOutput _ output := output
  buildCompactedHistory history _ := history

def plainMessage (role text : String) : ResponseItemEnvelope :=
  ⟨.message role.toList [.inputText text.toList] none [], none⟩

end Codex.Rollout
