import Dockerfile.Text.Case

/-!
# The instruction vocabulary

The keywords of a build file and what each of them means for reading its argument: whether the
argument may be an array of strings, whether it declares variables, whether it opens a build stage,
and whether it can name a stage with `--from`.
-/

namespace Dockerfile

inductive Keyword where
  | add
  | arg
  | cmd
  | copy
  | entrypoint
  | env
  | expose
  | fromImage
  | healthcheck
  | label
  | maintainer
  | onbuild
  | run
  | shell
  | stopsignal
  | user
  | volume
  | workdir
  deriving DecidableEq, Repr

namespace Keyword

def all : List Keyword :=
  [.add, .arg, .cmd, .copy, .entrypoint, .env, .expose, .fromImage, .healthcheck, .label,
    .maintainer, .onbuild, .run, .shell, .stopsignal, .user, .volume, .workdir]

theorem mem_all (k : Keyword) : k ∈ all := by
  cases k <;> decide

def spelling : Keyword → Bytes
  | .add => utf8 "ADD"
  | .arg => utf8 "ARG"
  | .cmd => utf8 "CMD"
  | .copy => utf8 "COPY"
  | .entrypoint => utf8 "ENTRYPOINT"
  | .env => utf8 "ENV"
  | .expose => utf8 "EXPOSE"
  | .fromImage => utf8 "FROM"
  | .healthcheck => utf8 "HEALTHCHECK"
  | .label => utf8 "LABEL"
  | .maintainer => utf8 "MAINTAINER"
  | .onbuild => utf8 "ONBUILD"
  | .run => utf8 "RUN"
  | .shell => utf8 "SHELL"
  | .stopsignal => utf8 "STOPSIGNAL"
  | .user => utf8 "USER"
  | .volume => utf8 "VOLUME"
  | .workdir => utf8 "WORKDIR"

/-- The argument may be an array of strings or plain text. -/
def hasArrayForm : Keyword → Bool
  | .add | .cmd | .copy | .entrypoint | .run | .shell | .volume => true
  | _ => false

def declaresVariables : Keyword → Bool
  | .arg | .env => true
  | _ => false

/-- The instruction opens a build stage and may give it a name. -/
def opensStage : Keyword → Bool
  | .fromImage => true
  | _ => false

def refersToStage : Keyword → Bool
  | .copy => true
  | _ => false

def isDeprecated : Keyword → Bool
  | .maintainer => true
  | _ => false

/-- The keyword that a word spells, in any case. -/
def ofWord? (word : Bytes) : Option Keyword :=
  all.find? (·.spelling == word.toUpper)

end Keyword

end Dockerfile
