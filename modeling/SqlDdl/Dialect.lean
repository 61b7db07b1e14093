/-!
# Dialects

The grammar comes in two dialects. The generic one has columns and primary key constraints;
MySQL adds inline `INDEX` definitions, `KEY` constraints, table options such as `ENGINE=InnoDB`,
and partitioning by key. Every statement of the generic dialect reads the same in MySQL.
-/

namespace SqlDdl

/-- The dialect of the `CREATE TABLE` grammar. -/
inductive Dialect where
  | generic
  | mysql
  deriving DecidableEq, Repr

end SqlDdl
