/-! # Return codes shared by every function of the program -/
namespace MySQLSyncer.Core

inductive RsCode where
  | ok
  | err
  | hasBinlog
  | noRecord
  | heartbeat
  | timedout
  | full
  | empty
  | noBinlog
  | cmdErr
  | slabOverflow
  | exists
  | notExists
  deriving DecidableEq, Repr

def RsCode.toInt : RsCode → Int
  | .ok => 0
  | .err => -1
  | .hasBinlog => -2
  | .noRecord => -3
  | .heartbeat => -4
  | .timedout => -5
  | .full => -6
  | .empty => -7
  | .noBinlog => -8
  | .cmdErr => -9
  | .slabOverflow => -10
  | .exists => -11
  | .notExists => -12

end MySQLSyncer.Core
