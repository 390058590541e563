import Retrograd.Agent.Chat

/-!
# Context budgeting for judge prompts

A judge request carries whole trajectories. A long message keeps its two **ends** around a marker; a long
trajectory loses messages from its **middle**, one at a time, and gets a marker in return.
-/

namespace Retrograd.Judge

open Agent

/-! ### The context -/

/-- How much a judge reads. -/
structure JudgeContext where
  maxRequestChars : ℕ := 60000
  maxTrajectoryChars : ℕ := 8000
  maxMessageChars : ℕ := 2000
  /-- Share of an elided message kept from its head; the remainder is kept from its tail. -/
  headRatio : Float32 := 0.4

def JudgeContext.validate (context : JudgeContext) : Except String Unit :=
  if context.maxRequestChars = 0 ∨ context.maxTrajectoryChars = 0 ∨ context.maxMessageChars = 0 then
    .error "judge context budgets must all be greater than zero"
  else if context.maxTrajectoryChars < context.maxMessageChars then
    .error "judge max_message_chars must not exceed max_trajectory_chars"
  else if context.maxRequestChars < context.maxTrajectoryChars then
    .error "judge max_trajectory_chars must not exceed max_request_chars"
  else if !context.headRatio.isFinite || !(decide (0 ≤ context.headRatio) && decide (context.headRatio ≤ 1))
  then .error "judge head_ratio must be finite and in [0, 1]"
  else .ok ()

/-! ### One message -/

/-- A message as the judge sees it. -/
structure JudgeMessage where
  role : String
  content : String
  isError : Bool
  deriving DecidableEq

structure RenderStats where
  renderedChars : ℕ := 0
  elidedChars : ℕ := 0
  elidedMessages : ℕ := 0
  deriving DecidableEq

def markerBudget : ℕ := 32

/-- The characters kept from the head. -/
def headChars (keep : ℕ) (headRatio : Float32) : ℕ :=
  min ((UInt64.ofNat keep).toFloat32 * headRatio).round.toUInt64.toNat keep

/-- Shortens a text by keeping both ends and replacing the middle with a marker, and says how many
characters went. -/
def elide (text : String) (maxChars : ℕ) (headRatio : Float32) : String × ℕ :=
  if text.length ≤ maxChars then (text, 0)
  else
    let total := text.length
    let keep := maxChars - markerBudget
    if keep = 0 then (s!"[{total} chars elided]", total)
    else
      let head := headChars keep headRatio
      let tail := keep - head
      let elided := total - keep
      (.ofList (text.toList.take head) ++ s!"\n[{elided} chars elided]\n" ++
        .ofList (text.toList.drop (total - tail)), elided)

/-! ### A trajectory -/

/-- Renders one message more. -/
def renderMessage (context : JudgeContext) (state : List JudgeMessage × RenderStats)
    (message : Message) : List JudgeMessage × RenderStats :=
  let (rendered, stats) := state
  let (content, elided) := elide message.content context.maxMessageChars context.headRatio
  let stats := if 0 < elided then
      { stats with
        elidedChars := stats.elidedChars + elided
        elidedMessages := stats.elidedMessages + 1 }
    else stats
  (rendered ++ [{ role := message.role.asStr, content, isError := message.isError }],
    { stats with renderedChars := stats.renderedChars + content.length })

/-- What is left of a trajectory while messages are dropped from its middle. -/
structure Trimmed (α : Type) where
  rendered : List α
  sizes : List ℕ
  total : ℕ
  dropped : ℕ
  stats : RenderStats

/-- Drops the message in the middle. -/
def Trimmed.dropMiddle {α : Type} (trimmed : Trimmed α) : Trimmed α :=
  let victim := trimmed.rendered.length / 2
  let size := trimmed.sizes.getD victim 0
  { rendered := trimmed.rendered.eraseIdx victim
    sizes := trimmed.sizes.eraseIdx victim
    total := trimmed.total - size
    dropped := trimmed.dropped + 1
    stats := { trimmed.stats with
      elidedChars := trimmed.stats.elidedChars + size
      elidedMessages := trimmed.stats.elidedMessages + 1 } }

/-- Drops messages until the rest fits, keeping the first and last whatever happens, in at most the given
number of drops. -/
def trim {α : Type} (limit : ℕ) : ℕ → Trimmed α → Trimmed α
  | 0, trimmed => trimmed
  | drops + 1, trimmed =>
    if limit < trimmed.total ∧ 2 < trimmed.rendered.length then trim limit drops trimmed.dropMiddle
    else trimmed

/-- The marker for dropped messages. -/
def droppedMarker (dropped : ℕ) : JudgeMessage where
  role := "system"
  content := s!"[{dropped} messages elided]"
  isError := false

/-- Puts a marker in where messages were dropped. -/
def insertMarker {α : Type} (marker : ℕ → α) (trimmed : Trimmed α) : List α :=
  if 0 < trimmed.dropped then
    trimmed.rendered.insertIdx (max (trimmed.rendered.length - 1) 1) (marker trimmed.dropped)
  else trimmed.rendered

/-- Renders a conversation under the per-message and per-trajectory budgets. -/
def renderMessages (messages : List Message) (context : JudgeContext) :
    List JudgeMessage × RenderStats :=
  let (rendered, stats) := messages.foldl (renderMessage context) ([], {})
  if stats.renderedChars ≤ context.maxTrajectoryChars then (rendered, stats)
  else
    let sizes := rendered.map fun message => message.content.length
    let trimmed := trim context.maxTrajectoryChars rendered.length
      ⟨rendered, sizes, stats.renderedChars, 0, stats⟩
    let total := trimmed.total +
      if 0 < trimmed.dropped then (droppedMarker trimmed.dropped).content.length else 0
    (insertMarker droppedMarker trimmed, { trimmed.stats with renderedChars := total })

end Retrograd.Judge
